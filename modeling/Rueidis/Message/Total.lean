import Rueidis.Message.Convert
import Rueidis.Resp.Read

/-!
# Which replies every conversion accepts

No conversion checks everything it indexes.  `Convertible` says of a message, in terms of its own
elements, what the unchecked ones rely on, and a message has that form exactly when none of the
conversions faults on it.
-/

namespace Rueidis

open Faults List

variable {F : Type}

/-! ## The form of a message -/

mutual

/-- Every map that `ToAny` goes through consists of pairs; keys are not gone through. -/
def RedisMessage.pairedMaps : RedisMessage → Bool
  | ⟨_, _, array, _, typ, _⟩ =>
    if typ = typeMap then pairedMap array
    else if typ = typeSet ∨ typ = typeArray then pairedArray array
    else true
termination_by structural m => m

def pairedMap : Option (List RedisMessage) → Bool
  | none => true
  | some vs => pairedValues vs
termination_by structural vs => vs

def pairedValues : List RedisMessage → Bool
  | [] => true
  | [_] => false
  | _ :: v :: rest => v.pairedMaps && pairedValues rest
termination_by structural vs => vs

def pairedArray : Option (List RedisMessage) → Bool
  | none => true
  | some vs => pairedElems vs
termination_by structural vs => vs

def pairedElems : List RedisMessage → Bool
  | [] => true
  | v :: rest => v.pairedMaps && pairedElems rest
termination_by structural vs => vs

end

variable {fields : List Bytes} {reply c : RedisMessage}

/-- The records of a RESP3 search reply: those under `results` before an `error` that is not
empty. -/
def ftRecords : List RedisMessage → List RedisMessage
  | k :: v :: rest =>
    if k.string = lit "results" then v.values ++ ftRecords rest
    else if k.string = lit "error" ∧ v.values ≠ [] then []
    else ftRecords rest
  | _ => []

def searchFields : List Bytes := [lit "id", lit "extra_attributes", lit "score"]
def aggregateFields : List Bytes := [lit "extra_attributes"]

def Paired (fields : List Bytes) (record : RedisMessage) : Prop :=
  record.values.length % 2 = 1 → ∀ k, record.values.getLast? = some k → k.string ∉ fields

def ftStride (layout : Bool × Bool) : Nat := 1 + layout.1.toNat + layout.2.toNat

/-- The element with the coordinates: it comes behind the name, the distance, if this is a text, and
the hash, if this is an integer. -/
def geoCoordinates (v : RedisMessage) : Option RedisMessage :=
  let info := v.values.tail
  let info := if info.head?.any (·.string ≠ []) then info.tail else info
  let info := if info.head?.any (·.isInt64) then info.tail else info
  info.head?

/-- The location is no string, and its distance does not parse or its coordinates are fewer than
two. -/
def geoRefused (conv : Strconv F) (v : RedisMessage) : Prop :=
  v.isString = false ∧
    ((∃ d, v.values[1]? = some d ∧ d.string ≠ [] ∧ (conv.toFloat64 d.string).2.isSome = true) ∨
      ∃ c, geoCoordinates v = some c ∧ c.array.isSome = true ∧ c.values.length < 2)

structure Convertible (conv : Strconv F) (m : RedisMessage) : Prop where
  maps : m.pairedMaps = true
  records : m.isMap = true → ∀ record ∈ ftRecords m.values, Paired searchFields record
  documents : m.isMap = false → m.error = none →
    (m.values.length - 1) % ftStride (ftLayout conv m.values) = 0
  cursor : ∀ reply c, m.withCursor = some (reply, c) → reply.isMap = true →
    ∀ record ∈ ftRecords reply.values, Paired aggregateFields record
  /-- A location that is neither a string nor has elements only stands behind one that is refused. -/
  locations : m.isArray = true → ∀ front v back, m.values = front ++ v :: back →
    v.isString = false → v.values = [] → ∃ u ∈ front, geoRefused conv u

/-! ## Conversions that check what they index -/

section Checked

variable {β : Type} {m : RedisMessage} {vs : List RedisMessage}

@[simp] theorem panics_checked (m : RedisMessage) : panics m.checked = false := by
  unfold RedisMessage.checked
  cases m.error <;> rfl

theorem panics_wantedTwo (n : Nat) : panics (wantedTwo n : Conv β) = false := rfl

theorem safe_of_checked {f : Unit → Conv β} (h : panics (f ()) = false) :
    panics (m.checked >>= f) = false :=
  safe_bind (panics_checked m) fun _ => h

theorem safe_toMap (h : vs.length % 2 = 0) : panics (toMap vs) = false := by
  apply safe_eachPair _ _ _ h
  intro r k v
  split
  · rfl
  · exact panics_lift _

theorem safe_asPairs {f : List RedisMessage → Conv β}
    (h : ∀ vs, vs.length % 2 = 0 → panics (f vs) = false) (m : RedisMessage) :
    panics (m.asPairs f) = false := by
  apply safe_of_checked
  split
  · rename_i hm
    rw [Bool.and_eq_true, beq_iff_eq] at hm
    exact h _ hm.2
  · exact panics_lift _

theorem safe_asStrMap (m : RedisMessage) : panics m.asStrMap = false :=
  safe_asPairs (safe_eachPair (fun _ _ _ => rfl) []) m

theorem safe_asIntMap (conv : Strconv F) (m : RedisMessage) : panics (m.asIntMap conv) = false := by
  apply safe_asPairs
  apply safe_eachPair
  intro r k v
  change panics (ite _ _ _) = false
  split
  · split
    · exact safe_bind (panics_lift _) fun _ => rfl
    · split <;> rfl
  · rfl

theorem safe_asXRangeEntry (m : RedisMessage) : panics m.asXRangeEntry = false := by
  apply safe_bind (panics_lift _)
  intro values
  split
  · apply safe_bind (panics_lift _)
    intro id
    split
    · rfl
    · exact safe_bind (safe_asStrMap _) fun _ => rfl
  · exact panics_wantedTwo _

theorem safe_asXRange (m : RedisMessage) : panics m.asXRange = false :=
  safe_bind (panics_lift _) fun _ => safe_mapM fun v _ => safe_asXRangeEntry v

theorem safe_fieldValue {i : Nat} (h : i < vs.length / 2) :
    panics (RedisMessage.fieldValue vs i) = false := by
  have hk : i * 2 < vs.length := by omega
  have hv : i * 2 + 1 < vs.length := by omega
  exact safe_bind (panics_get hk) fun _ => safe_bind (panics_get hv) fun _ => rfl

theorem safe_asXRangeSlice (m : RedisMessage) : panics m.asXRangeSlice = false := by
  apply safe_bind (panics_lift _)
  intro values
  split
  · apply safe_bind (panics_lift _)
    intro id
    split
    · rfl
    · rfl
    · apply safe_bind _ fun _ => rfl
      apply safe_mapM
      intro i hi
      exact safe_fieldValue (mem_range.mp hi)
  · exact panics_wantedTwo _

theorem safe_asXRangeSlices (m : RedisMessage) : panics m.asXRangeSlices = false :=
  safe_bind (panics_lift _) fun _ => safe_mapM fun v _ => safe_asXRangeSlice v

theorem safe_asStreams {entries : RedisMessage → Conv β} (h : ∀ v, panics (entries v) = false)
    (heven : m.isMap = true → m.values.length % 2 = 0) : panics (m.asStreams entries) = false := by
  apply safe_of_checked
  split
  · rename_i hm
    apply safe_eachPair _ _ _ (heven hm)
    intro r k v
    exact safe_bind rfl fun v => safe_bind (h v) fun _ => rfl
  · split
    · apply safe_foldlM
      intro r v hv
      split
      · exact safe_bind (h _) fun _ => rfl
      · exact panics_wantedTwo _
    · exact panics_lift _

theorem safe_slicePair {arr : List RedisMessage} {i : Nat} (h : i < arr.length / 2) :
    panics (slicePair arr (i * 2)) = false := by
  have hi : i * 2 + 2 ≤ arr.length := by omega
  unfold slicePair
  rw [if_pos hi]
  rfl

theorem safe_asZScores (conv : Strconv F) (m : RedisMessage) :
    panics (m.asZScores conv) = false := by
  apply safe_bind (panics_lift _)
  intro arr
  split
  · exact safe_mapM fun _ _ => panics_lift _
  · apply safe_mapM
    intro i hi
    exact safe_bind (safe_slicePair (mem_range.mp hi)) fun _ => panics_lift _

theorem safe_asScanEntry (conv : Strconv F) (m : RedisMessage) :
    panics (m.asScanEntry conv) = false := by
  apply safe_bind (panics_lift _)
  intro msgs
  split
  · exact safe_bind (panics_lift _) fun _ => safe_bind (panics_lift _) fun _ => rfl
  · exact panics_lift _

theorem safe_asPop {α : Type} {f : RedisMessage → Conv (List α)} {why : String}
    (h : ∀ v, panics (f v) = false) (m : RedisMessage) : panics (m.asPop f why) = false := by
  apply safe_of_checked
  split
  · exact safe_bind (h _) fun _ => rfl
  · exact panics_lift _

end Checked

/-! ## Any value -/

theorem panics_anyElem (x : Conv (AnyVal F)) : panics (anyElem x) = panics x := by
  unfold anyElem
  split <;> rfl

theorem reports_anyElem (x : Conv (AnyVal F)) : reports (anyElem x) = false := by
  unfold anyElem
  split
  · rfl
  · rfl
  · rename_i h
    cases x with
    | ok a => rfl
    | error e =>
      cases e with
      | err e => exact absurd rfl (h e)
      | panic p => rfl

mutual

theorem panics_toAny (conv : Strconv F) :
    ∀ m : RedisMessage, panics (m.toAny conv) = !m.pairedMaps
  | ⟨attrs, bytes, array, intlen, typ, ttl⟩ => by
      rw [RedisMessage.toAny]
      by_cases hmap : typ = typeMap
      · subst hmap
        change panics (AnyVal.map <$> anyMap conv array) = !pairedMap array
        rw [panics_map]
        exact panics_anyMap conv array
      · by_cases harray : typ = typeSet ∨ typ = typeArray
        · have hlist : panics (AnyVal.list <$> anyList conv array) = !pairedArray array := by
            rw [panics_map]
            exact panics_anyList conv array
          rcases harray with rfl | rfl
          · exact hlist
          · exact hlist
        · -- a message of any other type has no elements to go through
          have hpaired : (RedisMessage.mk attrs bytes array intlen typ ttl).pairedMaps = true := by
            rw [RedisMessage.pairedMaps, if_neg hmap, if_neg harray]
          rw [hpaired]
          apply safe_of_checked
          rw [if_neg hmap, if_neg harray]
          split
          · rw [panics_map]
            exact panics_lift _
          · repeat' split
            all_goals rfl
termination_by structural m => m

theorem panics_anyMap (conv : Strconv F) :
    ∀ array, panics (anyMap conv array) = !pairedMap array
  | none => rfl
  | some vs => panics_anyPairs conv [] vs
termination_by structural vs => vs

theorem panics_anyPairs (conv : Strconv F) (r : GoMap (AnyVal F)) :
    ∀ vs, panics (anyPairs conv r vs) = !pairedValues vs
  | [] => rfl
  | [_] => rfl
  | k :: v :: rest => by
      rw [anyPairs, pairedValues, panics_bind_total (reports_anyElem _) fun a =>
        panics_anyPairs conv (r.set k.string a) rest, panics_anyElem, panics_toAny conv v,
        Bool.not_and]
termination_by structural vs => vs

theorem panics_anyList (conv : Strconv F) :
    ∀ array, panics (anyList conv array) = !pairedArray array
  | none => rfl
  | some vs => panics_anyElems conv vs
termination_by structural vs => vs

theorem panics_anyElems (conv : Strconv F) :
    ∀ vs, panics (anyElems conv vs) = !pairedElems vs
  | [] => rfl
  | v :: rest => by
      have hrest : ∀ a : AnyVal F,
          panics (anyElems conv rest >>= fun as => .ok (a :: as)) = !pairedElems rest := by
        intro a
        rw [← panics_anyElems conv rest]
        exact panics_map (cons a) _
      rw [anyElems, pairedElems, panics_bind_total (reports_anyElem _) hrest, panics_anyElem,
        panics_toAny conv v, Bool.not_and]
termination_by structural vs => vs

end

theorem even_of_pairedValues : ∀ {vs : List RedisMessage}, pairedValues vs = true →
    vs.length % 2 = 0
  | [], _ => rfl
  | [_], h => nomatch h
  | _ :: _ :: rest, h => by
      rw [pairedValues, Bool.and_eq_true] at h
      have hrest := even_of_pairedValues h.2
      rw [length_cons, length_cons]
      omega

variable {m : RedisMessage} {conv : Strconv F}

theorem even_of_pairedMaps (h : m.pairedMaps = true) (hm : m.isMap = true) :
    m.values.length % 2 = 0 := by
  obtain ⟨attrs, bytes, array, intlen, typ, ttl⟩ := m
  have htyp : typ = typeMap := beq_iff_eq.mp hm
  rw [RedisMessage.pairedMaps, if_pos htyp] at h
  cases array with
  | none => rfl
  | some vs => exact even_of_pairedValues h

theorem pairedElems_mem : ∀ {vs : List RedisMessage}, pairedElems vs = true →
    ∀ v ∈ vs, v.pairedMaps = true
  | [], _, _, hv => nomatch hv
  | u :: vs, h, v, hv => by
      rw [pairedElems, Bool.and_eq_true] at h
      rcases mem_cons.mp hv with rfl | hv
      · exact h.1
      · exact pairedElems_mem h.2 v hv

theorem pairedMaps_of_mem {v : RedisMessage} (h : m.pairedMaps = true) (hm : m.isArray = true)
    (hv : v ∈ m.values) : v.pairedMaps = true := by
  obtain ⟨attrs, bytes, array, intlen, typ, ttl⟩ := m
  have htyp : typ = typeArray ∨ typ = typeSet := by
    simpa [RedisMessage.isArray] using hm
  have hmap : typ ≠ typeMap := by
    rcases htyp with rfl | rfl <;> decide
  rw [RedisMessage.pairedMaps, if_neg hmap, if_pos htyp.symm] at h
  cases array with
  | none => exact nomatch hv
  | some vs => exact pairedElems_mem h v hv

/-! ## Searches -/

theorem strMapOrNil_total (v : RedisMessage) : ∃ attrs, strMapOrNil v = .ok attrs := by
  apply ignored_eq_ok
  rw [panics_map]
  exact safe_asStrMap v

theorem panics_record_iff {σ : Type} {field : σ → RedisMessage → Conv RedisMessage → Conv σ}
    (hok : ∀ s k v, ∃ s', field s k (.ok v) = .ok s')
    (hlast : ∀ s k, panics (field s k (.error (.panic indexOutOfRange))) =
      decide (k.string ∈ fields)) (s : σ) (record : RedisMessage) :
    panics (pairs field s record.values) = false ↔ Paired fields record := by
  unfold Paired
  rw [← Bool.not_eq_true, panics_eachPair_iff hok hlast]
  simp only [decide_eq_true_eq, not_and, not_exists]

theorem ftSearchField_total (conv : Strconv F) (doc : FtSearchDoc F) (k v : RedisMessage) :
    ∃ doc', ftSearchField conv doc k (.ok v) = .ok doc' := by
  unfold ftSearchField
  split
  · exact ⟨_, rfl⟩
  · split
    · obtain ⟨attrs, h⟩ := strMapOrNil_total v
      refine ⟨{ doc with doc := attrs }, ?_⟩
      change (strMapOrNil v >>= fun attrs => .ok { doc with doc := attrs }) = _
      rw [h]
      rfl
    · split
      · exact ⟨_, rfl⟩
      · exact ⟨_, rfl⟩

theorem ftAggregateField_total (doc : Option (GoMap Bytes)) (k v : RedisMessage) :
    ∃ doc', ftAggregateField doc k (.ok v) = .ok doc' := by
  unfold ftAggregateField
  split
  · exact strMapOrNil_total v
  · exact ⟨_, rfl⟩

theorem panics_ftSearchRecord_iff (conv : Strconv F) (record : RedisMessage) :
    panics (ftSearchRecord conv record) = false ↔ Paired searchFields record := by
  apply panics_record_iff (ftSearchField_total conv)
  intro doc k
  unfold ftSearchField searchFields
  by_cases hid : k.string = lit "id"
  · simp [hid]
    rfl
  · by_cases hattrs : k.string = lit "extra_attributes"
    · simp [hattrs]
      rfl
    · by_cases hscore : k.string = lit "score"
      · simp [hscore]
        rfl
      · simp [hid, hattrs, hscore]

theorem panics_ftAggregateRecord_iff (record : RedisMessage) :
    panics (ftAggregateRecord record) = false ↔ Paired aggregateFields record := by
  apply panics_record_iff ftAggregateField_total
  intro doc k
  unfold ftAggregateField aggregateFields
  by_cases hattrs : k.string = lit "extra_attributes"
  · simp [hattrs]
    rfl
  · simp [hattrs]

theorem reports_ftSearchRecord (conv : Strconv F) (record : RedisMessage) :
    reports (ftSearchRecord conv record) = false := by
  apply reports_eachPair (ftSearchField_total conv)
  intro doc k
  unfold ftSearchField
  repeat' split
  all_goals rfl

theorem reports_ftAggregateRecord (record : RedisMessage) :
    reports (ftAggregateRecord record) = false := by
  apply reports_eachPair ftAggregateField_total
  intro doc k
  unfold ftAggregateField
  split <;> rfl

section Reply

variable {δ : Type} {record : RedisMessage → Conv δ} {s : FtReply δ} {k v : RedisMessage}

theorem ftPair_results (hk : k.string = lit "results") :
    ftPair record s k (.ok v) =
      v.values.mapM record >>= fun docs => .ok { s with docs := docs } := by
  unfold ftPair
  rw [hk, if_neg (by decide), if_pos rfl]
  rfl

theorem ftPair_error (record : RedisMessage → Conv δ) (s : FtReply δ) (hk : k.string = lit "error")
    (hv : v.values ≠ []) :
    ∃ e, ftPair record s k (.ok v) = .error (.err (.redis e)) := by
  unfold ftPair
  rw [hk, if_neg (by decide), if_neg (by decide), if_pos rfl]
  change ∃ e, ftError s v = .error (.err (.redis e))
  unfold ftError
  cases hvs : v.values with
  | nil => exact absurd hvs hv
  | cons e rest => exact ⟨e, rfl⟩

theorem ftPair_other (record : RedisMessage → Conv δ) (s : FtReply δ)
    (hresults : k.string ≠ lit "results") (herror : ¬(k.string = lit "error" ∧ v.values ≠ [])) :
    ∃ s', ftPair record s k (.ok v) = .ok s' := by
  unfold ftPair
  rw [if_neg hresults]
  split
  · exact ⟨_, rfl⟩
  · split
    · rename_i hk
      have hv : v.values = [] := by
        by_contra hv
        exact herror ⟨hk, hv⟩
      refine ⟨s, ?_⟩
      change ftError s v = .ok s
      unfold ftError
      rw [hv]
    · exact ⟨_, rfl⟩

theorem panics_ftPairs_iff (hrec : ∀ r, reports (record r) = false) (s : FtReply δ)
    (vs : List RedisMessage) (heven : vs.length % 2 = 0) :
    panics (pairs (ftPair record) s vs) = false ↔ ∀ r ∈ ftRecords vs, panics (record r) = false := by
  induction s, vs using eachPair.induct with
  | case1 s => simp [ftRecords, eachPair]
  | case2 s k => simp at heven
  | case3 s k v rest ih =>
    have hrest : rest.length % 2 = 0 := by
      rw [length_cons, length_cons] at heven
      omega
    rw [pairs, eachPair]
    by_cases hresults : k.string = lit "results"
    · rw [ftRecords, if_pos hresults, ftPair_results hresults]
      by_cases hall : ∀ r ∈ v.values, panics (record r) = false
      · -- the records of this pair are fine, so the rest decides
        obtain ⟨docs, hdocs⟩ := mapM_total fun r hr => exists_ok (hrec r) (hall r hr)
        rw [hdocs]
        refine (ih { s with docs := docs } hrest).trans ?_
        constructor
        · intro h r hr
          rcases mem_append.mp hr with hr | hr
          · exact hall r hr
          · exact h r hr
        · intro h r hr
          exact h r (mem_append_right _ hr)
      · constructor
        · intro h
          exfalso
          apply hall
          intro r hr
          by_contra hp
          have hm := panics_mapM_of_mem (fun r _ => hrec r) hr ((Bool.not_eq_false _).mp hp)
          have hbind : panics (v.values.mapM record >>= fun docs =>
              .ok { s with docs := docs } >>= fun s =>
                eachPair indexOutOfRange (ftPair record) s rest) =
              true := panics_bind hm
          rw [bind_assoc, hbind] at h
          cases h
        · intro h
          exact absurd (fun r hr => h r (mem_append_left _ hr)) hall
    · rw [ftRecords, if_neg hresults]
      by_cases herror : k.string = lit "error" ∧ v.values ≠ []
      · obtain ⟨e, he⟩ := ftPair_error record s herror.1 herror.2
        rw [if_pos herror, he]
        simp only [not_mem_nil, false_implies, implies_true, iff_true]
        exact panics_err _
      · obtain ⟨s', hs⟩ := ftPair_other record s hresults herror
        rw [if_neg herror, hs]
        exact ih s' hrest

end Reply

theorem panics_ftDocs_iff (conv : Strconv F) (wscore wattrs : Bool) (vs : List RedisMessage) :
    panics (ftDocs conv wscore wattrs vs) = false ↔ vs.length % ftStride (wscore, wattrs) = 0 := by
  fun_induction ftDocs conv wscore wattrs vs with
  | case1 => simp
  | case2 key rest hattrs hscore ih =>
    subst hattrs hscore
    rw [panics_map, ih]
    change rest.length % 1 = 0 ↔ (rest.length + 1) % 1 = 0
    omega
  | case3 key score rest hattrs hscore ih =>
    subst hattrs hscore
    rw [panics_map, ih]
    change rest.length % 2 = 0 ↔ (rest.length + 2) % 2 = 0
    omega
  | case4 key attrs rest hattrs hscore ih =>
    subst hattrs hscore
    obtain ⟨doc, hdoc⟩ := strMapOrNil_total attrs
    rw [hdoc]
    refine Iff.trans (iff_of_eq (congrArg (· = false) (panics_map _ _))) (ih.trans ?_)
    change rest.length % 2 = 0 ↔ (rest.length + 2) % 2 = 0
    omega
  | case5 key score attrs rest hattrs hscore ih =>
    subst hattrs hscore
    obtain ⟨doc, hdoc⟩ := strMapOrNil_total attrs
    rw [hdoc]
    refine Iff.trans (iff_of_eq (congrArg (· = false) (panics_map _ _))) (ih.trans ?_)
    change rest.length % 3 = 0 ↔ (rest.length + 3) % 3 = 0
    omega
  | case6 key rest hnone hscore hattrs hboth =>
    -- fewer elements are left than one document has
    have hshort : (key :: rest).length % ftStride (wscore, wattrs) ≠ 0 := by
      cases wscore with
      | false =>
        cases wattrs with
        | false => exact absurd rfl (hnone rfl)
        | true =>
          cases rest with
          | nil => exact (by decide : 1 % 2 ≠ 0)
          | cons attrs rest => exact absurd rfl (hattrs attrs rest rfl rfl)
      | true =>
        cases wattrs with
        | false =>
          cases rest with
          | nil => exact (by decide : 1 % 2 ≠ 0)
          | cons score rest => exact absurd rfl (hscore score rest rfl rfl)
        | true =>
          cases rest with
          | nil => exact (by decide : 1 % 3 ≠ 0)
          | cons score rest =>
            cases rest with
            | nil => exact (by decide : 2 % 3 ≠ 0)
            | cons attrs rest => exact absurd rfl (hboth score attrs rest rfl rfl)
    exact ⟨nofun, fun h => absurd h hshort⟩

theorem panics_checked_bind {β : Type} (f : Unit → Conv β) :
    panics (m.checked >>= f) = false ↔ (m.error = none → panics (f ()) = false) := by
  unfold RedisMessage.checked
  cases m.error with
  | none => exact ⟨fun h _ => h, fun h => h rfl⟩
  | some err => exact ⟨fun _ => nofun, fun _ => rfl⟩

theorem error_eq_none_of_isMap (h : m.isMap = true) : m.error = none := by
  have htyp : m.typ = typeMap := beq_iff_eq.mp h
  unfold RedisMessage.error
  rw [htyp]
  rfl

theorem panics_asFtSearch_map (hm : m.isMap = true) (heven : m.values.length % 2 = 0) :
    panics (m.asFtSearch conv) = false ↔
      ∀ record ∈ ftRecords m.values, Paired searchFields record := by
  have hrecords := panics_ftPairs_iff (reports_ftSearchRecord conv) {} m.values heven
  unfold RedisMessage.asFtSearch
  rw [panics_checked_bind, if_pos hm, hrecords]
  simp only [panics_ftSearchRecord_iff, error_eq_none_of_isMap hm, forall_const]

theorem panics_asFtAggregate_map (hm : m.isMap = true) (heven : m.values.length % 2 = 0) :
    panics m.asFtAggregate = false ↔
      ∀ record ∈ ftRecords m.values, Paired aggregateFields record := by
  have hrecords := panics_ftPairs_iff reports_ftAggregateRecord {} m.values heven
  unfold RedisMessage.asFtAggregate
  rw [panics_checked_bind, if_pos hm, hrecords]
  simp only [panics_ftAggregateRecord_iff, error_eq_none_of_isMap hm, forall_const]

theorem panics_asFtSearch_flat (hm : m.isMap = false) : panics (m.asFtSearch conv) = false ↔
      (m.error = none → (m.values.length - 1) % ftStride (ftLayout conv m.values) = 0) := by
  unfold RedisMessage.asFtSearch
  rw [panics_checked_bind, if_neg (by rw [hm]; nofun)]
  apply imp_congr_right
  intro _
  cases m.values with
  | nil => exact ⟨fun _ => Nat.zero_mod _, fun _ => panics_lift _⟩
  | cons total rest =>
    rw [panics_map]
    exact panics_ftDocs_iff conv _ _ rest

theorem safe_asFtAggregate_flat (hm : m.isMap = false) : panics m.asFtAggregate = false := by
  unfold RedisMessage.asFtAggregate
  rw [panics_checked_bind, if_neg (by rw [hm]; nofun)]
  intro _
  split
  · rw [panics_map]
    apply safe_mapM
    intro v _
    obtain ⟨attrs, h⟩ := strMapOrNil_total v
    rw [h]
    rfl
  · exact panics_lift _

theorem Paired.mono {fields' : List Bytes} {record : RedisMessage} (h : Paired fields record)
    (hsub : fields' ⊆ fields) : Paired fields' record :=
  fun hodd k hk hmem => h hodd k hk (hsub hmem)

theorem aggregateFields_subset : aggregateFields ⊆ searchFields := by decide

/-! ## Geo searches -/

theorem panics_geoLocation_iff (conv : Strconv F) (v : RedisMessage) :
    panics (geoLocation conv v) = true ↔ v.isString = false ∧ v.values = [] := by
  unfold geoLocation
  cases hs : v.isString with
  | true => simp
  | false =>
    rw [if_neg nofun]
    cases hv : v.values with
    | nil => exact ⟨fun _ => ⟨rfl, rfl⟩, fun _ => rfl⟩
    | cons name info =>
      have hsafe := safe_bind (panics_lift (π := Panic) (geoDist conv info)) fun dist =>
        safe_bind (panics_lift (geoCoord conv (name :: info).length (geoHash dist.2).2)) fun coord =>
          panics_ok (GeoLocation.mk name.string coord.1 coord.2 dist.1 (geoHash dist.2).1)
      exact ⟨fun h => absurd (h.symm.trans hsafe) nofun, fun h => nomatch h.2⟩

/-- Behind the distance: the coordinates are refused if there are fewer than two. -/
theorem reports_geoCoord_iff {n : Nat} {info rest : List RedisMessage} {dist : F}
    (hdist : geoDist conv info = .ok (dist, rest)) (f : F × List RedisMessage → F × F → GeoLocation F) :
    reports (lift (geoDist conv info) >>= fun dist =>
        lift (geoCoord conv n (geoHash dist.2).2) >>= fun coord =>
          (.ok (f dist coord) : Conv _)) = true ↔
      ∃ c, (if rest.head?.any (·.isInt64) then rest.tail else rest).head? = some c ∧
        c.array.isSome = true ∧ c.values.length < 2 := by
  have hhash : (geoHash rest).2 = if rest.head?.any (·.isInt64) then rest.tail else rest := by
    cases rest with
    | nil => rfl
    | cons c rest => cases hc : c.isInt64 <;> simp [geoHash, hc]
  rw [hdist, ← hhash]
  change reports (lift (geoCoord conv n (geoHash rest).2) >>= _) = true ↔ _
  cases (geoHash rest).2 with
  | nil => simp [geoCoord, lift, reports, bind, Except.bind]
  | cons c later =>
    by_cases harray : c.array.isSome = true
    · rcases hv : c.values with _ | ⟨longitude, _ | ⟨latitude, rest⟩⟩ <;>
        simp [geoCoord, hv, harray, lift, reports, bind, Except.bind]
    · simp [geoCoord, harray, lift, reports, bind, Except.bind]

theorem reports_geoLocation_iff (conv : Strconv F) (v : RedisMessage) :
    reports (geoLocation conv v) = true ↔ geoRefused conv v := by
  unfold geoLocation geoRefused geoCoordinates
  cases hs : v.isString with
  | true => simp [reports]
  | false =>
    rw [if_neg nofun, and_iff_right rfl]
    rcases hv : v.values with _ | ⟨name, _ | ⟨d, info⟩⟩ <;> dsimp only
    · simp [reports]
    · have hdist : geoDist conv [] = .ok (conv.zero, []) := rfl
      rw [reports_geoCoord_iff hdist]
      simp
    · by_cases hd : d.string = []
      · have hdist : geoDist conv (d :: info) = .ok (conv.zero, d :: info) := by simp [geoDist, hd]
        rw [reports_geoCoord_iff hdist]
        cases hhash : d.isInt64 <;> simp [hd, hhash]
      · rcases hparse : conv.toFloat64 d.string with ⟨dist, _ | err⟩
        · have hdist : geoDist conv (d :: info) = .ok (dist, info) := by
            simp [geoDist, hd, hparse, orErr, bind, Except.bind]
          rw [reports_geoCoord_iff hdist]
          simp [hd, hparse]
        · have hdist : geoDist conv (d :: info) = .error err := by
            simp [geoDist, hd, hparse, orErr, bind, Except.bind]
          rw [hdist]
          exact iff_of_true rfl (.inl ⟨d, rfl, hd, by rw [hparse]; rfl⟩)

theorem safe_asGeosearch_iff (conv : Strconv F) (hm : m.isArray = true) :
    panics (m.asGeosearch conv) = false ↔
      ∀ front v back, m.values = front ++ v :: back → v.isString = false → v.values = [] →
        ∃ u ∈ front, geoRefused conv u := by
  unfold RedisMessage.asGeosearch
  rw [RedisMessage.toArray_of_isArray hm]
  change panics (m.values.mapM (geoLocation conv)) = false ↔ _
  simp only [safe_mapM_iff, panics_geoLocation_iff, reports_geoLocation_iff, and_imp]

theorem safe_asGeosearch (conv : Strconv F) (hm : m.isArray = false) :
    panics (m.asGeosearch conv) = false := by
  have herr : ∃ err, m.toArray = .error err := by
    unfold RedisMessage.toArray
    rw [if_neg (by rw [hm]; nofun)]
    cases m.error with
    | none => exact ⟨_, rfl⟩
    | some err => exact ⟨err, rfl⟩
  obtain ⟨err, herr⟩ := herr
  unfold RedisMessage.asGeosearch
  rw [herr]
  rfl

/-! ## Every conversion -/

theorem mem_values_of_withCursor (h : m.withCursor = some (reply, c)) :
    m.isArray = true ∧ reply ∈ m.values := by
  unfold RedisMessage.withCursor at h
  split at h
  · rename_i hm hvalues
    split at h
    · cases h
      exact ⟨hm, hvalues ▸ mem_cons_self⟩
    · exact nomatch h
  · exact nomatch h

theorem panics_asFtAggregateCursor (h : m.withCursor = some (reply, c)) :
    panics m.asFtAggregateCursor = panics reply.asFtAggregate := by
  unfold RedisMessage.asFtAggregateCursor
  rw [h]
  exact panics_map _ _

theorem Convertible.of_accessors (h : ∀ a : Accessor, a.panics conv m = false) :
    Convertible conv m := by
  have hmaps : m.pairedMaps = true := by
    have hany : panics (m.toAny conv) = false := h .toAny
    rw [panics_toAny] at hany
    simpa using hany
  have hsearch : panics (m.asFtSearch conv) = false := h .asFtSearch
  constructor
  · exact hmaps
  · intro hm
    exact (panics_asFtSearch_map hm (even_of_pairedMaps hmaps hm)).mp hsearch
  · intro hm
    exact (panics_asFtSearch_flat hm).mp hsearch
  · intro reply c hcursor hm
    obtain ⟨harray, hmem⟩ := mem_values_of_withCursor hcursor
    have heven := even_of_pairedMaps (pairedMaps_of_mem hmaps harray hmem) hm
    apply (panics_asFtAggregate_map hm heven).mp
    rw [← panics_asFtAggregateCursor hcursor]
    exact h .asFtAggregateCursor
  · intro hm
    exact (safe_asGeosearch_iff conv hm).mp (h .asGeosearch)

section Holds

variable {conv : Strconv F} {m : RedisMessage}

variable (h : Convertible conv m)

include h

theorem Convertible.even (hm : m.isMap = true) : m.values.length % 2 = 0 :=
  even_of_pairedMaps h.maps hm

theorem Convertible.safe_toMap : panics m.toMap = false := by
  unfold RedisMessage.toMap
  split
  · rename_i hm
    exact Rueidis.safe_toMap (h.even hm)
  · exact safe_of_checked (panics_lift _)

theorem Convertible.safe_asFtSearch : panics (m.asFtSearch conv) = false := by
  cases hm : m.isMap with
  | true => exact (panics_asFtSearch_map hm (h.even hm)).mpr (h.records hm)
  | false => exact (panics_asFtSearch_flat hm).mpr (h.documents hm)

theorem Convertible.safe_asFtAggregate : panics m.asFtAggregate = false := by
  cases hm : m.isMap with
  | true =>
    apply (panics_asFtAggregate_map hm (h.even hm)).mpr
    intro record hr
    exact (h.records hm record hr).mono aggregateFields_subset
  | false => exact safe_asFtAggregate_flat hm

theorem Convertible.safe_asFtAggregateCursor : panics m.asFtAggregateCursor = false := by
  cases hcursor : m.withCursor with
  | none =>
    unfold RedisMessage.asFtAggregateCursor
    rw [hcursor]
    exact (panics_map _ _).trans h.safe_asFtAggregate
  | some rc =>
    obtain ⟨reply, c⟩ := rc
    rw [panics_asFtAggregateCursor hcursor]
    cases hm : reply.isMap with
    | true =>
      obtain ⟨harray, hmem⟩ := mem_values_of_withCursor hcursor
      have heven := even_of_pairedMaps (pairedMaps_of_mem h.maps harray hmem) hm
      exact (panics_asFtAggregate_map hm heven).mpr (h.cursor reply c hcursor hm)
    | false => exact safe_asFtAggregate_flat hm

theorem Convertible.safe_asGeosearch : panics (m.asGeosearch conv) = false := by
  cases hm : m.isArray with
  | true => exact (safe_asGeosearch_iff conv hm).mpr (h.locations hm)
  | false => exact Rueidis.safe_asGeosearch conv hm

theorem Convertible.accessors :
    ∀ a : Accessor, a.panics conv m = false
  | .toMap => h.safe_toMap
  | .toAny => by
      change panics (m.toAny conv) = false
      rw [panics_toAny, h.maps]
      rfl
  | .asMap => safe_asPairs (fun _ => Rueidis.safe_toMap) m
  | .asStrMap => safe_asStrMap m
  | .asIntMap => safe_asIntMap conv m
  | .asXRead => safe_asStreams safe_asXRange h.even
  | .asXReadSlices => safe_asStreams safe_asXRangeSlices h.even
  | .asXRangeSlice => safe_asXRangeSlice m
  | .asZScores => safe_asZScores conv m
  | .asScanEntry => safe_asScanEntry conv m
  | .asLMPop => safe_asPop (fun _ => panics_lift _) m
  | .asZMPop => safe_asPop (safe_asZScores conv) m
  | .asFtSearch => h.safe_asFtSearch
  | .asFtAggregate => h.safe_asFtAggregate
  | .asFtAggregateCursor => h.safe_asFtAggregateCursor
  | .asGeosearch => h.safe_asGeosearch

end Holds

/-- On a message every conversion returns a value or an error exactly when the message is
`Convertible`. -/
theorem accessors_total_iff (conv : Strconv F) (m : RedisMessage) :
    (∀ a : Accessor, a.panics conv m = false) ↔ Convertible conv m :=
  ⟨Convertible.of_accessors, Convertible.accessors⟩

/-- Replies that the reader returns and a conversion faults on: a streamed map of one key, a search
reply whose documents do not fill it, a record of one field name, and a location that is a
number. -/
theorem accessors_fault_on_read_replies :
    (readNextMessage (lit "%?\r\n+a\r\n.\r\n") = (.ok (mapOf [simpleString "a"]), []) ∧
      ∀ conv : Strconv Unit, ∀ a ∈ [Accessor.toMap, .toAny, .asXRead, .asXReadSlices],
        a.panics conv (mapOf [simpleString "a"]) = true) ∧
    (readNextMessage (lit "*4\r\n:1\r\n+a\r\n*0\r\n+b\r\n") =
        (.ok (arrayOf [integer 1, simpleString "a", arrayOf [], simpleString "b"]), []) ∧
      ∀ conv : Strconv Unit, Accessor.asFtSearch.panics conv
        (arrayOf [integer 1, simpleString "a", arrayOf [], simpleString "b"]) = true) ∧
    (readNextMessage (lit "%1\r\n+results\r\n*1\r\n*1\r\n+extra_attributes\r\n") =
        (.ok (mapOf [simpleString "results", arrayOf [arrayOf [simpleString "extra_attributes"]]]),
          []) ∧
      ∀ conv : Strconv Unit, ∀ a ∈ [Accessor.asFtSearch, .asFtAggregate, .asFtAggregateCursor],
        a.panics conv (mapOf [simpleString "results",
          arrayOf [arrayOf [simpleString "extra_attributes"]]]) = true) ∧
    (readNextMessage (lit "*1\r\n:1\r\n") = (.ok (arrayOf [integer 1]), []) ∧
      ∀ conv : Strconv Unit, Accessor.asGeosearch.panics conv (arrayOf [integer 1]) = true) := by
  refine ⟨⟨rfl, ?_⟩, ⟨rfl, fun _ => rfl⟩, ⟨rfl, ?_⟩, ⟨rfl, fun _ => rfl⟩⟩
  · intro conv a ha
    simp only [mem_cons, not_mem_nil, or_false] at ha
    rcases ha with rfl | rfl | rfl | rfl <;> rfl
  · intro conv a ha
    simp only [mem_cons, not_mem_nil, or_false] at ha
    rcases ha with rfl | rfl | rfl <;> rfl

end Rueidis
