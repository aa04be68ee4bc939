import Mathlib.Data.List.TakeWhile
import Mathlib.Data.List.Nodup

/-!
# The names of fields

`newSchema` takes the name of a field from its json tag.  The tag is split with
`strings.SplitN(tag, ",", 1)`, which does not split: the name is the whole tag, options included, while
`encoding/json` takes the part before the first comma.  The save script of the JSON repository uses the
name of the version as a path.
-/

namespace Rueidis.Om

open List

/-- A Go string by its runes. -/
abbrev Text := List Char

/-- `strings.SplitN` for one rune and a limit that is not negative. -/
def splitN (sep : Char) : Nat → Text → List Text
  | 0, _ => []
  | 1, s => [s]
  | n + 2, s =>
    match s.dropWhile (· != sep) with
    | [] => [s]
    | _ :: rest => s.takeWhile (· != sep) :: splitN sep (n + 1) rest

def contains (s text : Text) : Bool := s.tails.any text.isPrefixOf

/-- The types that are told apart; an embedded struct is a time or another type. -/
inductive FieldType where
  | string
  | int64
  | time (embedded : Bool)
  | other (embedded : Bool)
deriving DecidableEq

def FieldType.embedded : FieldType → Bool
  | .time embedded | .other embedded => embedded
  | _ => false

/-- A field of a Go struct; a tag that is absent is empty. -/
structure StructField where
  name : Text
  exported : Bool
  typ : FieldType
  json : Text
  redis : Text
  comma_notMem_name : ',' ∉ name
deriving DecidableEq

structure SchemaField where
  name : Text
  idx : Nat
  isKey : Bool
  isVer : Bool
  isExt : Bool

structure TagSchema where
  key : Option SchemaField := none
  ver : Option SchemaField := none
  ext : Option SchemaField := none
  fields : List (Text × SchemaField) := []

def parse (f : StructField) (idx : Nat) : SchemaField :=
  let vs := splitN ',' 1 f.json
  { name := if vs.headD [] = [] then f.name else vs.headD []
    idx := idx
    isKey := contains f.redis ",key".toList
    isVer := contains f.redis ",ver".toList
    isExt := contains f.redis ",exat".toList }

def shouldBe (typ tag what : String) : String :=
  "field with tag `redis:\"," ++ tag ++ "\"` in schema \"" ++ typ ++ "\" should be a " ++ what

def TagSchema.record (s : TagSchema) (f : SchemaField) : TagSchema :=
  { key := if f.isKey then some f else s.key
    ver := if f.isVer then some f else s.ver
    ext := if f.isExt then some f else s.ext
    fields := (f.name, f) :: s.fields.filter fun p => p.1 ≠ f.name }

/-- One field of the loop of `newSchema`; an error is the text of a panic. -/
def addField (typ : String) (sf : StructField) (idx : Nat) (s : TagSchema) : Except String TagSchema :=
  let f := parse sf idx
  if !sf.exported ∨ f.name = ['-'] then .ok s
  else if f.isKey ∧ sf.typ ≠ .string then .error (shouldBe typ "key" "string")
  else if f.isVer ∧ sf.typ ≠ .int64 then .error (shouldBe typ "ver" "int64")
  else if f.isExt ∧ sf.typ ≠ .time sf.typ.embedded then .error (shouldBe typ "exat" "time.Time")
  else .ok (s.record f)

def addFields (typ : String) : List StructField → Nat → TagSchema → Except String TagSchema
  | [], _, s => .ok s
  | sf :: t, idx, s =>
    match addField typ sf idx s with
    | .error message => .error message
    | .ok s => addFields typ t (idx + 1) s

/-- `newSchema` of a struct type; there is no version field where `ver` is `none`. -/
def newSchema (typ : String) (t : List StructField) : Except String TagSchema :=
  match addFields typ t 0 {} with
  | .error message => .error message
  | .ok s =>
    if s.key.isNone then
      .error ("schema \"" ++ typ ++ "\" should have one field with `redis:\",key\"` tag")
    else .ok s

/-! ## The names of encoding/json -/

/-- `isValidTag` of `encoding/json`; `wide` tells the letters and digits beyond ASCII. -/
def isValidTag (wide : Char → Bool) (s : Text) : Bool :=
  !s.isEmpty && s.all fun c => "!#$%&()*+-./:;<=>?@[]^_\x7b|\x7d~ ".toList.contains c ||
    if c.val < 128 then c.isAlphanum else wide c

namespace StructField

def beforeComma (f : StructField) : Text := f.json.takeWhile (· != ',')

def tagName (f : StructField) : Text := if f.beforeComma = [] then f.name else f.beforeComma

variable (wide : Char → Bool)

def tagged (f : StructField) : Bool := isValidTag wide f.beforeComma

def jsonName (f : StructField) : Text := if f.tagged wide then f.beforeComma else f.name

/-- The field is one of the members; the fields of an embedded struct without a name are deeper, and
no member of the struct itself gives way to them. -/
def recorded (f : StructField) : Bool :=
  (f.exported || f.typ.embedded) && f.json != ['-'] && (f.tagged wide || !f.typ.embedded)

end StructField

section Members

variable (wide : Char → Bool)

/-- The fields that compete for a name: if some have it from their tags, only these. -/
def candidates (t : List StructField) (name : Text) : List (StructField × Nat) :=
  let fields := t.zipIdx.filter fun q => q.1.recorded wide && q.1.jsonName wide == name
  if fields.any (·.1.tagged wide) then fields.filter (·.1.tagged wide) else fields

/-- The field of the entity that its JSON text has under the name; several are all ignored. -/
def member (t : List StructField) (name : Text) : Option Nat :=
  match candidates wide t name with
  | [q] => some q.2
  | _ => none

/-! ## Paths -/

def plainName (s : Text) : Bool :=
  (s.headD '.' == '_' || (s.headD '.').isAlpha) && s.all fun c => c == '_' || c.isAlphanum

/-- The member of a document that RedisJSON reads a path as, if the path names one of the document
itself: a plain name is this member, two with a dot between are a member of a member. -/
structure PathReader where
  member : Text → Option Text
  plain : ∀ s, plainName s = true → member s = some s
  dotted : ∀ a b, plainName a = true → plainName b = true → member (a ++ '.' :: b) = none

/-- The field that `JSON.GET` and `JSON.NUMINCRBY` of the script act on, by its first argument. -/
def scriptField (R : PathReader) (t : List StructField) (s : TagSchema) : Option Nat :=
  (s.ver.bind fun f => R.member f.name).bind (member wide t)

/-- The condition: the recorded name, as a path, is the member of the name that JSON encoding uses,
and no other field takes this name, unless it lacks it in its tag while the version has it there. -/
structure VersionWritten (R : PathReader) (t : List StructField) (sf : StructField) (idx : Nat) :
    Prop where
  path : R.member (parse sf idx).name = some (sf.jsonName wide)
  alone : ∀ (i : Nat) g, t[i]? = some g → i ≠ idx → g.recorded wide = true →
    g.jsonName wide = sf.jsonName wide → sf.tagged wide = true ∧ g.tagged wide = false

end Members

variable {wide : Char → Bool} {f : StructField} {t : List StructField}

theorem takeWhile_comma {s : Text} (h : ',' ∉ s) : s.takeWhile (· != ',') = s := by
  rw [takeWhile_eq_self_iff]
  intro c hc
  simpa using ne_of_mem_of_not_mem hc h

theorem comma_notMem_beforeComma (f : StructField) : ',' ∉ f.beforeComma := by
  intro hmem
  simpa using mem_takeWhile_imp hmem

theorem comma_notMem_tagName (f : StructField) : ',' ∉ f.tagName := by
  unfold StructField.tagName
  split
  · exact f.comma_notMem_name
  · exact comma_notMem_beforeComma f

theorem comma_notMem_jsonName (f : StructField) : ',' ∉ f.jsonName wide := by
  unfold StructField.jsonName
  split
  · exact comma_notMem_beforeComma f
  · exact f.comma_notMem_name

theorem parse_name (f : StructField) (idx : Nat) :
    (parse f idx).name = if f.json = [] then f.name else f.json := rfl

theorem comma_mem_parse_name (idx : Nat) (h : ',' ∈ f.json) : ',' ∈ (parse f idx).name := by
  rwa [parse_name, if_neg (ne_nil_of_mem h)]

theorem parse_name_eq_tagName (idx : Nat) : (parse f idx).name = f.tagName ↔ ',' ∉ f.json := by
  constructor
  · intro heq hmem
    exact comma_notMem_tagName f (heq ▸ comma_mem_parse_name idx hmem)
  · intro h
    rw [parse_name, StructField.tagName, StructField.beforeComma, takeWhile_comma h]

theorem parse_name_eq_jsonName (idx : Nat) : (parse f idx).name = f.jsonName wide ↔
    ',' ∉ f.json ∧ (f.json = [] ∨ isValidTag wide f.json = true ∨ f.json = f.name) := by
  by_cases hmem : ',' ∈ f.json
  · refine ⟨fun heq => ?_, fun h => absurd hmem h.1⟩
    exact absurd (heq ▸ comma_mem_parse_name idx hmem) (comma_notMem_jsonName f)
  · rw [parse_name, StructField.jsonName, StructField.tagged, StructField.beforeComma,
      takeWhile_comma hmem]
    have hempty : isValidTag wide [] = false := rfl
    by_cases hjson : f.json = []
    · simp [hjson, hempty]
    · by_cases hvalid : isValidTag wide f.json = true <;> simp [hjson, hvalid, hmem]

/-! ## Members -/

variable {R : PathReader} {sf : StructField} {idx : Nat}

theorem mem_candidates {name : Text} {q : StructField × Nat} : q ∈ candidates wide t name ↔
    (t[q.2]? = some q.1 ∧ q.1.recorded wide = true ∧ q.1.jsonName wide = name) ∧
      (q.1.tagged wide = true ∨ ∀ (i : Nat) g, t[i]? = some g → g.recorded wide = true →
        g.jsonName wide = name → g.tagged wide = false) := by
  unfold candidates
  dsimp only
  split
  next hany =>
    obtain ⟨⟨g, i⟩, hg, htagged⟩ := any_eq_true.mp hany
    simp only [mem_filter, mem_zipIdx_iff_getElem?, Bool.and_eq_true, beq_iff_eq] at hg ⊢
    rw [or_iff_left]
    intro hnone
    cases htagged.symm.trans (hnone i g hg.1 hg.2.1 hg.2.2)
  next hany =>
    simp only [mem_filter, mem_zipIdx_iff_getElem?, Bool.and_eq_true, beq_iff_eq]
    refine (and_iff_left (.inr fun i g hg hrec hname => ?_)).symm
    refine Bool.eq_false_iff.mpr fun htagged => hany (any_eq_true.mpr ⟨(g, i), ?_, htagged⟩)
    simp [mem_zipIdx_iff_getElem?, hg, hrec, hname]

theorem nodup_candidates (name : Text) : (candidates wide t name).Nodup := by
  have hidx : t.zipIdx.Nodup := by
    apply Nodup.of_map Prod.snd
    rw [zipIdx_map_snd]
    exact nodup_range'
  unfold candidates
  dsimp only
  split
  · exact (hidx.filter _).filter _
  · exact hidx.filter _

theorem member_eq_some {name : Text} (hsf : t[idx]? = some sf) :
    member wide t name = some idx ↔ candidates wide t name = [(sf, idx)] := by
  unfold member
  constructor
  · intro h
    split at h <;> cases h
    next q hq =>
      have hmem : q ∈ candidates wide t name := hq ▸ mem_cons_self
      rw [hq, ← Option.some.inj ((mem_candidates.mp hmem).1.1.symm.trans hsf)]
  · intro h
    rw [h]

theorem member_jsonName (hsf : t[idx]? = some sf) (hrec : sf.recorded wide = true) :
    member wide t (sf.jsonName wide) = some idx ↔ ∀ (i : Nat) g, t[i]? = some g → i ≠ idx →
      g.recorded wide = true → g.jsonName wide = sf.jsonName wide →
      sf.tagged wide = true ∧ g.tagged wide = false := by
  rw [member_eq_some hsf, ← perm_singleton,
    perm_ext_iff_of_nodup (nodup_candidates _) (nodup_singleton _)]
  constructor
  · intro h i g hg hne hgrec hname
    have hself := (mem_candidates.mp ((h (sf, idx)).mpr mem_cons_self)).2
    have hother : (g, i) ∉ candidates wide t (sf.jsonName wide) := fun hmem =>
      hne (congrArg Prod.snd (mem_singleton.mp ((h (g, i)).mp hmem)))
    rw [mem_candidates] at hother
    grind
  · rintro h ⟨g, i⟩
    rw [mem_singleton, mem_candidates]
    grind

theorem scriptField_eq_some {s : TagSchema} (hs : s.ver = some (parse sf idx))
    (hsf : t[idx]? = some sf) (hrec : sf.recorded wide = true) :
    scriptField wide R t s = some idx ↔ VersionWritten wide R t sf idx := by
  unfold scriptField
  rw [hs, Option.bind_some]
  constructor
  · intro h
    obtain ⟨name, hpath, hmember⟩ := Option.bind_eq_some_iff.mp h
    -- the member was written for this very field, so it has its name
    have hmem : (sf, idx) ∈ candidates wide t name := by
      rw [(member_eq_some hsf).mp hmember]
      exact mem_cons_self
    have hname := (mem_candidates.mp hmem).1.2.2
    rw [← hname] at hpath hmember
    exact ⟨hpath, (member_jsonName hsf hrec).mp hmember⟩
  · intro h
    rw [h.path]
    exact (member_jsonName hsf hrec).mpr h.alone

/-! ## Whole types -/

def Parsed (t : List StructField) (f : SchemaField) : Prop :=
  ∃ sf, t[f.idx]? = some sf ∧ f = parse sf f.idx

structure TagSchema.Inv (t : List StructField) (s : TagSchema) : Prop where
  fields : ∀ p ∈ s.fields, p.1 = p.2.name ∧ Parsed t p.2
  ver : ∀ f ∈ s.ver, ∃ sf, t[f.idx]? = some sf ∧ f = parse sf f.idx ∧
    ∀ wide, sf.recorded wide = true

theorem recorded_of_parsed (hexported : ¬ (!sf.exported ∨ (parse sf idx).name = ['-']))
    (htyp : sf.typ = .int64) (wide : Char → Bool) : sf.recorded wide = true := by
  rw [not_or, Bool.not_eq_true, Bool.not_eq_false', parse_name] at hexported
  have hjson : sf.json ≠ ['-'] := by
    intro hjson
    apply hexported.2
    rw [hjson]
    rfl
  simp [StructField.recorded, htyp, FieldType.embedded, hexported.1, hjson]

theorem TagSchema.Inv.addField {s s' : TagSchema} (inv : s.Inv t) {typ : String}
    (hsf : t[idx]? = some sf) (h : Om.addField typ sf idx s = .ok s') : s'.Inv t := by
  simp only [Om.addField] at h
  split_ifs at h with hskip hkey hver hext
  · cases h
    exact inv
  · cases h
    constructor
    · intro p hp
      rcases mem_cons.mp hp with rfl | hold
      · exact ⟨rfl, sf, hsf, rfl⟩
      · exact inv.fields p (mem_of_mem_filter hold)
    · intro f hf
      simp only [TagSchema.record] at hf
      split_ifs at hf with hisVer
      · cases hf
        have htyp : sf.typ = .int64 := by
          by_contra hne
          exact hver ⟨hisVer, hne⟩
        exact ⟨sf, hsf, rfl, recorded_of_parsed hskip htyp⟩
      · exact inv.ver f hf

theorem TagSchema.Inv.addFields {typ : String} {rest : List StructField} (d : List StructField)
    (ht : t = d ++ rest) {s s' : TagSchema} (inv : s.Inv t)
    (h : Om.addFields typ rest d.length s = .ok s') : s'.Inv t := by
  induction rest generalizing d s with
  | nil =>
    cases h
    exact inv
  | cons sf rest ih =>
    rw [Om.addFields] at h
    split at h
    · cases h
    next s₁ hadd =>
      have hsf : t[d.length]? = some sf := by simp [ht]
      exact ih (d ++ [sf]) (by simp [ht]) (inv.addField hsf hadd) (by simpa using h)

def idField : StructField := ⟨"ID".toList, true, .string, [], ",key".toList, by decide⟩

def verField (json : String) : StructField :=
  ⟨"Ver".toList, true, .int64, json.toList, ",ver".toList, by decide⟩

def revField : StructField := ⟨"Rev".toList, true, .int64, "ver".toList, [], by decide⟩

/-- Paths of plain names only. -/
def plainPaths : PathReader where
  member s := if plainName s then some s else none
  plain _ hs := if_pos hs
  dotted a b _ _ := if_neg (by simp [plainName])

def newScript (t : List StructField) : Except String (Option Nat) :=
  (newSchema "T" t).map (scriptField (fun _ => false) plainPaths t)

end Rueidis.Om
