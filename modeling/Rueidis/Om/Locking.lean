import Rueidis.Om.Model

/-!
# Optimistic locking

Both repositories treat the record of a key as a versioned cell: the script accepts an entity whose
version is the stored one and leaves the next version, which is also what the entity gets.
-/

namespace Rueidis.Om

open List Option Decimal Machine Double

open HashRecord (put)

open VersionedCell (Linked)

/-! ## Versions as text -/

variable {n : Int} {F : Type}

theorem parseInt_formatInt (h₁ : -2 ^ 63 ≤ n) (h₂ : n < 2 ^ 63) :
    parseInt (formatInt n) = (n, none) := by
  rw [parseInt, formatInt, readInt_numeralInt]
  dsimp only
  rw [if_neg (by omega), if_neg (by omega)]

theorem formatInt_inj {m : Int} (h : formatInt m = formatInt n) : m = n := by
  have hm := readInt_numeralInt m
  rw [show numeralInt m = numeralInt n from h, readInt_numeralInt] at hm
  exact (some.inj hm).symm

theorem nearest_of_version (h : n.natAbs < 2 ^ 53) : nearest n = n :=
  nearest_of_natAbs_lt h

theorem tonumber_formatInt (n : Int) : tonumber (formatInt n) = some (nearest n) := by
  rw [tonumber, formatInt, readInt_numeralInt, map_some]

theorem tostring_of_lt (h : n.natAbs < 10 ^ 14) : tostring n = formatInt n := by
  rw [tostring, formatInt, numeralInt, general_of_lt h]

/-- A text with an exponent is no integer. -/
theorem readInt_tostring (h : 10 ^ 14 ≤ n.natAbs) : readInt (tostring n) = none := by
  have hmem := exponent_mem_general h
  apply readInt_eq_none (b := 101) _ (by decide) (by decide) (by decide)
  rw [tostring]
  split
  · exact mem_cons_of_mem _ hmem
  · exact hmem

theorem tostring_eq_formatInt : tostring n = formatInt n ↔ n.natAbs < 10 ^ 14 := by
  refine ⟨fun heq => ?_, tostring_of_lt⟩
  by_contra hlarge
  have hnone := readInt_tostring (not_lt.mp hlarge)
  rw [heq, formatInt, readInt_numeralInt] at hnone
  cases hnone

/-! ## Hashes -/

section Hash

variable {k : Bytes} {ps : List (Bytes × Bytes)}

theorem lookup_filter_ne {k' : Bytes} (hne : k ≠ k') (fields : List (Bytes × Bytes)) :
    (fields.filter fun q => q.1 ≠ k').lookup k = fields.lookup k := by
  induction fields with
  | nil => rfl
  | cons q fields ih =>
    by_cases hq : q.1 = k'
    · rw [filter_cons_of_neg (by simpa using hq), ih, lookup_cons,
        beq_false_of_ne (by rw [hq]; exact hne)]
    · rw [filter_cons_of_pos (by simpa using hq), lookup_cons, lookup_cons, ih]

theorem lookup_put (fields : List (Bytes × Bytes)) (p : Bytes × Bytes) (k : Bytes) :
    (put fields p).lookup k = if k = p.1 then some p.2 else fields.lookup k := by
  rw [put, lookup_cons]
  by_cases hk : k = p.1
  · rw [if_pos hk, hk, beq_self_eq_true]
  · rw [if_neg hk, beq_false_of_ne hk]
    exact lookup_filter_ne hk fields

theorem lookup_foldl_put (hps : ∀ p ∈ ps, p.1 ≠ k) (fields : List (Bytes × Bytes)) :
    (ps.foldl put fields).lookup k = fields.lookup k := by
  induction ps generalizing fields with
  | nil => rfl
  | cons p ps ih =>
    rw [forall_mem_cons] at hps
    rw [foldl_cons, ih hps.2, lookup_put, if_neg (Ne.symm hps.1)]

theorem length_flatMap_pair (ps : List (Bytes × Bytes)) :
    (ps.flatMap fun p => [p.1, p.2]).length = 2 * ps.length := by
  induction ps with
  | nil => rfl
  | cons p ps ih =>
    rw [flatMap_cons, length_append, ih]
    simp only [length_cons, length_nil]
    omega

theorem pairs_flatMap (ps : List (Bytes × Bytes)) :
    HashRecord.pairs (ps.flatMap fun p => [p.1, p.2]) = ps := by
  induction ps with
  | nil => rfl
  | cons p ps ih =>
    rw [flatMap_cons]
    change (p.1, p.2) :: HashRecord.pairs (ps.flatMap fun p => [p.1, p.2]) = _
    rw [ih]

theorem takeExpiry_append (ps : List (Bytes × Bytes)) (ext : Option Bytes) :
    takeExpiry ((ps.flatMap fun p => [p.1, p.2]) ++ ext.toList) =
      (ps.flatMap fun p => [p.1, p.2], ext) := by
  have hlen := length_flatMap_pair ps
  unfold takeExpiry
  cases ext with
  | none =>
    rw [toList_none, append_nil, if_neg (by omega)]
  | some e =>
    rw [toList_some, length_append, length_singleton, if_pos (by omega),
      dropLast_concat, getLast?_concat]

theorem write_append (hps : ps ≠ []) (ext : Option Bytes) (record : HashRecord) :
    record.write ((ps.flatMap fun p => [p.1, p.2]) ++ ext.toList) =
      some { fields := ps.foldl put record.fields, expireAt := ext.or record.expireAt } := by
  have hlen := length_flatMap_pair ps
  have hpos : 0 < ps.length := length_pos_iff.mpr hps
  have hne : ¬ ((ps.flatMap fun p => [p.1, p.2]) = [] ∨
      (ps.flatMap fun p => [p.1, p.2]).length % 2 = 1) := by
    rintro (hnil | hodd)
    · rw [hnil, length_nil] at hlen
      omega
    · omega
  rw [HashRecord.write, takeExpiry_append]
  dsimp only
  rw [HashRecord.hset, if_neg hne, pairs_flatMap, map_some]

def nextVersion (ver : Int) : Bytes := tostring (nearest (nearest ver + 1))

theorem nextVersion_eq {ver : Int} (h₀ : -2 ^ 53 < ver) (h : ver < 2 ^ 53 - 1) :
    nextVersion ver = tostring (ver + 1) := by
  rw [nextVersion, nearest_of_version (n := ver) (by omega), nearest_of_version (by omega)]

theorem hashSaveScript_versioned {name : Bytes} (hname : name ≠ []) (ver : Int)
    (ps : List (Bytes × Bytes)) (ext : Option Bytes) (record : HashRecord) :
    hashSaveScript (name :: formatInt ver :: ((ps.flatMap fun p => [p.1, p.2]) ++ ext.toList)) record =
      if record.fields.lookup name = none ∨ record.fields.lookup name = some (formatInt ver) then
        ({ fields := ((name, nextVersion ver) :: ps).foldl put record.fields
           expireAt := ext.or record.expireAt }, .text (nextVersion ver))
      else (record, .nil) := by
  -- the version pair and the others are one list of pairs
  have hwrite : record.write
      (name :: nextVersion ver :: ((ps.flatMap fun p => [p.1, p.2]) ++ ext.toList)) = _ :=
    write_append (cons_ne_nil (name, nextVersion ver) ps) ext record
  rw [hashSaveScript, if_neg hname]
  dsimp only
  rw [tonumber_formatInt]
  dsimp only
  rw [← nextVersion, hwrite]

end Hash

/-! ## What a repository promises -/

/-- The script accepts the stored version and any version where there is none, and refuses the
others without an effect. -/
structure Repository.Versioned {F R A : Type} (repo : Repository F R A) (Good : R → Prop) : Prop where
  accepts : ∀ entity order args record, repo.toExec entity order = some args → 0 ≤ entity.ver →
    entity.ver < 10 ^ 14 - 1 → Good record →
    repo.version record = none ∨ repo.version record = some entity.ver →
    (repo.save args record).2 = .text (formatInt (entity.ver + 1)) ∧
      Good (repo.save args record).1 ∧
      repo.version (repo.save args record).1 = some (entity.ver + 1)
  refuses : ∀ entity order args record, repo.toExec entity order = some args → 0 ≤ entity.ver →
    entity.ver < 10 ^ 14 - 1 → Good record →
    ¬ (repo.version record = none ∨ repo.version record = some entity.ver) →
    repo.save args record = (record, .nil)
  fetches : ∀ record entity, Good record → repo.fetch record = .ok entity →
    repo.version record = some entity.ver

section HashRepository

variable {F : Type} (S : Schema F)

variable {entity : Entity F} {order : List (Bytes × Bytes)}

def HashRecord.Good (record : HashRecord) : Prop :=
  record.fields = [] ∨
    ∃ v : Int, 0 ≤ v ∧ v < 10 ^ 14 ∧ record.fields.lookup S.ver = some (formatInt v)

variable {S}

theorem lookup_ver_toHash (entity : Entity F) :
    (S.toHash entity).lookup S.ver = some (formatInt entity.ver) := by
  rw [Schema.toHash, lookup_cons, beq_false_of_ne (Ne.symm S.key_ne_ver)]
  rw [lookup_cons, beq_self_eq_true]

theorem hashToExec_args (pre : Bytes) (entity : Entity F) (order : List (Bytes × Bytes)) :
    ∃ ext : Option Bytes, (S.hashToExec pre entity order).args =
      S.ver :: formatInt entity.ver :: ((order.flatMap fun p => [p.1, p.2]) ++ ext.toList) := by
  unfold Schema.hashToExec
  rw [lookup_ver_toHash]
  by_cases hext : S.extVal entity.fields ≠ 0
  · refine ⟨some (formatInt (S.extVal entity.fields)), ?_⟩
    rw [if_pos hext]
    rfl
  · refine ⟨none, ?_⟩
    rw [if_neg hext]
    rfl

theorem ne_ver_of_order (horder : order.isPerm (S.rest entity) = true) :
    ∀ p ∈ order, p.1 ≠ S.ver := by
  intro p hp
  have hmem := (isPerm_iff.mp horder).mem_iff.mp hp
  simpa using (mem_filter.mp hmem).2

theorem HashRecord.Good.version_eq {record : HashRecord} (h : record.Good S) (ver : Int)
    (pre id : Bytes) :
    ((hashRepository S pre id).version record = none ∨
        (hashRepository S pre id).version record = some ver) ↔
      (record.fields.lookup S.ver = none ∨ record.fields.lookup S.ver = some (formatInt ver)) := by
  unfold hashRepository
  dsimp only
  rcases h with hnil | ⟨v, hv₀, hv, hlookup⟩
  · rw [hnil]
    simp
  · rw [hlookup, map_some, parseInt_formatInt (by omega) (by omega)]
    constructor
    · rintro (hnone | hsome)
      · cases hnone
      · obtain rfl : v = ver := some.inj hsome
        exact Or.inr rfl
    · rintro (hnone | hsome)
      · cases hnone
      · rw [formatInt_inj (some.inj hsome)]
        exact Or.inr rfl

theorem hashSaveScript_eq (horder : order.isPerm (S.rest entity) = true) (h₀ : 0 ≤ entity.ver)
    (h : entity.ver < 2 ^ 53 - 1) (pre : Bytes) (record : HashRecord) :
    if record.fields.lookup S.ver = none ∨
        record.fields.lookup S.ver = some (formatInt entity.ver) then
      (hashSaveScript (S.hashToExec pre entity order).args record).2 =
          .text (tostring (entity.ver + 1)) ∧
        (hashSaveScript (S.hashToExec pre entity order).args record).1.fields.lookup S.ver =
          some (tostring (entity.ver + 1))
    else hashSaveScript (S.hashToExec pre entity order).args record = (record, .nil) := by
  obtain ⟨ext, hargs⟩ := hashToExec_args pre entity order
  rw [hargs, hashSaveScript_versioned S.ver_ne_nil, nextVersion_eq (by omega) h]
  split
  · refine ⟨rfl, ?_⟩
    rw [foldl_cons, lookup_foldl_put (ne_ver_of_order horder), lookup_put, if_pos rfl]
  · rfl

theorem hashRepository_versioned (pre id : Bytes) :
    (hashRepository S pre id).Versioned (HashRecord.Good S) := by
  constructor
  · intro entity order args record hexec h₀ h hgood hver
    rw [hgood.version_eq] at hver
    simp only [hashRepository, ite_none_right_eq_some, some.injEq] at hexec ⊢
    obtain ⟨⟨horder, -⟩, rfl⟩ := hexec
    have hscript := hashSaveScript_eq horder h₀ (by omega) pre record
    rw [if_pos hver, tostring_of_lt (by omega)] at hscript
    refine ⟨hscript.1, Or.inr ⟨entity.ver + 1, by omega, by omega, hscript.2⟩, ?_⟩
    rw [hscript.2, map_some, parseInt_formatInt (by omega) (by omega)]
  · intro entity order args record hexec h₀ h hgood hver
    rw [hgood.version_eq] at hver
    simp only [hashRepository, ite_none_right_eq_some, some.injEq] at hexec ⊢
    obtain ⟨⟨horder, -⟩, rfl⟩ := hexec
    have hscript := hashSaveScript_eq horder h₀ (by omega) pre record
    rw [if_neg hver] at hscript
    exact hscript
  · intro record entity hgood hfetch
    change S.fromHash record = .ok entity at hfetch
    change (record.fields.lookup S.ver).map _ = _
    rw [Schema.fromHash] at hfetch
    rcases hgood with hnil | ⟨v, hv₀, hv, hlookup⟩
    · rw [hnil, length_nil, if_pos rfl] at hfetch
      cases hfetch
    · rw [hlookup] at hfetch
      dsimp only at hfetch
      rw [parseInt_formatInt (by omega) (by omega)] at hfetch
      split at hfetch
      · cases hfetch
      · rw [hlookup, map_some, parseInt_formatInt (by omega) (by omega)]
        split at hfetch
        · cases hfetch
        · cases hfetch
        · rw [← Except.ok.inj hfetch]

end HashRepository

section JsonRepository

variable {F : Type}

def JsonRecord.Good (record : JsonRecord F) : Prop :=
  ∀ doc, record.doc = some doc → 0 ≤ doc.ver ∧ doc.ver < 10 ^ 14

theorem formatInt_eq_iff (record : JsonRecord F) (ver : Int) :
    (record.doc.map (fun doc => formatInt doc.ver) = none ∨
        record.doc.map (fun doc => formatInt doc.ver) = some (formatInt ver)) ↔
      (record.doc.map (fun doc => doc.ver) = none ∨
        record.doc.map (fun doc => doc.ver) = some ver) := by
  cases record.doc with
  | none => simp
  | some doc => simpa using ⟨formatInt_inj, congrArg formatInt⟩

theorem jsonSaveScript_eq (S : Schema F) (entity : Entity F) (pre : Bytes) (record : JsonRecord F) :
    jsonSaveScript (S.jsonToExec pre entity).args record =
      if record.doc.map (fun doc => formatInt doc.ver) = none ∨
          record.doc.map (fun doc => formatInt doc.ver) = some (formatInt entity.ver) then
        ({ doc := some { entity with ver := entity.ver + 1 }
           expireAt := (S.jsonToExec pre entity).args.ext.or record.expireAt },
          .text (formatInt (entity.ver + 1)))
      else (record, .nil) := by
  have hname : (S.jsonToExec pre entity).args.name ≠ [] := S.ver_ne_nil
  rw [jsonSaveScript, if_neg hname]
  rfl

theorem jsonRepository_versioned (S : Schema F) (pre id : Bytes) :
    (jsonRepository S pre id).Versioned JsonRecord.Good := by
  constructor
  · intro entity order args record hexec h₀ h hgood hver
    simp only [jsonRepository, ite_none_right_eq_some, some.injEq] at hexec hver ⊢
    obtain ⟨-, rfl⟩ := hexec
    rw [← formatInt_eq_iff] at hver
    rw [jsonSaveScript_eq, if_pos hver]
    refine ⟨rfl, ?_, rfl⟩
    intro doc hdoc
    rw [← some.inj hdoc]
    dsimp only
    omega
  · intro entity order args record hexec h₀ h hgood hver
    simp only [jsonRepository, ite_none_right_eq_some, some.injEq] at hexec hver ⊢
    obtain ⟨-, rfl⟩ := hexec
    rw [← formatInt_eq_iff] at hver
    rw [jsonSaveScript_eq, if_neg hver]
  · intro record entity _ hfetch
    change record.doc.map _ = _
    change jsonFetch record = .ok entity at hfetch
    unfold jsonFetch at hfetch
    split at hfetch
    · cases hfetch
    · rename_i doc hdoc
      rw [hdoc, ← Except.ok.inj hfetch]
      rfl

end JsonRepository

/-! ## Whole runs -/

section Runs

variable {F R A : Type} {repo : Repository F R A} {Good : R → Prop} {start : Option Int}

def CallInv (repo : Repository F R A) : Call F A → Prop
  | .idle => True
  | .sent entity args =>
    (∃ order, repo.toExec entity order = some args) ∧ 0 ≤ entity.ver ∧ entity.ver < 10 ^ 14 - 1
  | .replied entity reply attempt =>
    0 ≤ entity.ver ∧ entity.ver < 10 ^ 14 - 1 ∧ attempt.offered = entity.ver ∧
      reply = if attempt.succeeded then .text (formatInt (entity.ver + 1)) else .nil

/-- A call returns without error exactly when its script has accepted the entity, whose version is
then the new one. -/
def Returned.Valid (r : Returned) : Prop :=
  r.err = (if r.attempt.succeeded then none else some errVersionMismatch) ∧
    r.ver = if r.attempt.succeeded then r.attempt.offered + 1 else r.attempt.offered

structure SystemInv (repo : Repository F R A) (Good : R → Prop) (start : Option Int)
    (s : System F R A) : Prop where
  good : Good s.record
  linked : Linked start s.log (repo.version s.record)
  calls : ∀ c, CallInv repo (s.clients c).call
  returned : ∀ r ∈ s.returned, r.Valid

theorem calls_update {clients : Nat → Client F A} (h : ∀ c, CallInv repo (clients c).call) (c : Nat)
    {client : Client F A} (hc : CallInv repo client.call) (c' : Nat) :
    CallInv repo (Function.update clients c client c').call := by
  by_cases heq : c' = c
  · subst heq
    rw [Function.update_self]
    exact hc
  · rw [Function.update_of_ne heq]
    exact h c'

theorem afterSave_valid {entity : Entity F} {reply : Reply} {attempt : VersionedCell.Attempt}
    (h : CallInv repo (.replied entity reply attempt)) :
    Returned.Valid
      { attempt := attempt, err := (afterSave entity reply).2,
        ver := (afterSave entity reply).1.ver } := by
  obtain ⟨h₀, hlt, hoffered, hreply⟩ := h
  unfold Returned.Valid
  rw [hreply, hoffered]
  by_cases hs : attempt.succeeded = true
  · rw [if_pos hs, if_pos hs, if_pos hs]
    refine ⟨rfl, ?_⟩
    change (parseInt (formatInt (entity.ver + 1))).1 = _
    rw [parseInt_formatInt (by omega) (by omega)]
  · rw [if_neg hs, if_neg hs, if_neg hs]
    exact ⟨rfl, rfl⟩

theorem SystemInv.exec (hrepo : repo.Versioned Good) {s s' : System F R A}
    (h : SystemInv repo Good start s) {c : Nat} (hstep : repo.step s (.exec c) = some s') :
    SystemInv repo Good start s' := by
  have hcall := h.calls c
  dsimp only [Repository.step] at hstep
  cases hc : (s.clients c).call with
  | idle =>
    rw [hc] at hstep
    cases hstep
  | replied entity reply attempt =>
    rw [hc] at hstep
    cases hstep
  | sent entity args =>
    rw [hc] at hstep hcall
    obtain ⟨⟨order, hexec⟩, h₀, hlt⟩ := hcall
    rw [← some.inj hstep]
    by_cases hver : repo.version s.record = none ∨ repo.version s.record = some entity.ver
    · obtain ⟨hreply, hgood, hafter⟩ :=
        hrepo.accepts entity order args s.record hexec h₀ hlt h.good hver
      rw [hreply]
      constructor
      · exact hgood
      · exact h.linked.snoc rfl ⟨⟨fun _ => hver, fun _ => rfl⟩, hafter⟩
      · exact calls_update h.calls c ⟨h₀, hlt, rfl, rfl⟩
      · exact h.returned
    · rw [hrepo.refuses entity order args s.record hexec h₀ hlt h.good hver]
      constructor
      · exact h.good
      · exact h.linked.snoc rfl ⟨⟨fun hs => Bool.noConfusion hs, fun hor => absurd hor hver⟩, rfl⟩
      · exact calls_update h.calls c ⟨h₀, hlt, rfl, rfl⟩
      · exact h.returned

theorem SystemInv.step (hrepo : repo.Versioned Good) (s : System F R A) (a : Step F)
    (s' : System F R A) (h : SystemInv repo Good start s) (hrange : InRange s a)
    (hstep : repo.step s a = some s') : SystemInv repo Good start s' := by
  cases a with
  | assign c entity | fetch c =>
    dsimp only [Repository.step] at hstep
    split at hstep
    · rw [← some.inj hstep]
      exact ⟨h.good, h.linked, calls_update h.calls c trivial, h.returned⟩
    · cases hstep
  | save c order =>
    dsimp only [Repository.step] at hstep
    split at hstep
    · rename_i entity _ hentity
      obtain ⟨args, hexec, hs'⟩ := map_eq_some_iff.mp hstep
      rw [← hs']
      exact ⟨h.good, h.linked, calls_update h.calls c ⟨⟨order, hexec⟩, hrange entity hentity⟩,
        h.returned⟩
    · cases hstep
  | exec c => exact h.exec hrepo hstep
  | receive c =>
    have hcall := h.calls c
    dsimp only [Repository.step] at hstep
    split at hstep
    · rename_i entity reply attempt hc
      rw [hc] at hcall
      rw [← some.inj hstep]
      refine ⟨h.good, h.linked, calls_update h.calls c trivial, ?_⟩
      intro r hr
      rcases mem_append.mp hr with hold | hnew
      · exact h.returned r hold
      · rw [mem_singleton.mp hnew]
        exact afterSave_valid hcall
    · cases hstep

end Runs

/-- In every run in which the saved versions are in the range: a script that finds a version accepts
the entity exactly when it has that version, and then stores the next one; it stores nothing
otherwise; a `Fetch` gives the stored version; a call reports what its script did; and of two
accepted entities the later one had the larger version. -/
def NoLostUpdate {F R A : Type} (repo : Repository F R A) (Good : R → Prop) : Prop :=
  ∀ record steps s, Good record → Machine.Guarded repo.step InRange { record := record } steps →
    run repo.step { record := record } steps = some s →
    (∀ a ∈ s.log, (∀ v, a.before = some v → (a.succeeded = true ↔ a.offered = v)) ∧
      (a.succeeded = true → a.after = some (a.offered + 1)) ∧
      (a.succeeded = false → a.after = a.before)) ∧
    Linked (repo.version record) s.log (repo.version s.record) ∧
    (∀ entity, repo.fetch s.record = .ok entity → repo.version s.record = some entity.ver) ∧
    (∀ r ∈ s.returned, (r.err = none ↔ r.attempt.succeeded = true) ∧
      (r.attempt.succeeded = true → r.ver = r.attempt.offered + 1)) ∧
    s.log.Pairwise fun a b => a.succeeded = true → b.succeeded = true → a.offered < b.offered

theorem noLostUpdate_of_versioned {R A : Type} {repo : Repository F R A} {Good : R → Prop}
    (hrepo : repo.Versioned Good) : NoLostUpdate repo Good := by
  intro record steps s hgood hguard hrun
  have hstart : SystemInv repo Good (repo.version record) { record := record } :=
    ⟨hgood, rfl, fun _ => trivial, fun r hr => by cases hr⟩
  have h := run_invariant_guarded repo.step (SystemInv.step hrepo) hstart hguard hrun
  refine ⟨?_, h.linked, fun entity => hrepo.fetches s.record entity h.good, ?_, h.linked.increasing⟩
  · intro a ha
    have hvalid := h.linked.valid ha
    refine ⟨?_, ?_, ?_⟩
    · intro v hv
      rw [hvalid.succeeded_iff, hv]
      simp [eq_comm]
    · intro hs
      rw [hvalid.after_eq, if_pos hs]
    · intro hs
      rw [hvalid.after_eq, hs]
      rfl
  · intro r hr
    obtain ⟨herr, hver⟩ := h.returned r hr
    refine ⟨?_, fun hs => by rw [hver, if_pos hs]⟩
    rw [herr]
    by_cases hs : r.attempt.succeeded = true
    · rw [if_pos hs]
      exact ⟨fun _ => hs, fun _ => rfl⟩
    · rw [if_neg hs]
      exact ⟨(fun h => nomatch h), fun h => absurd h hs⟩

def counterSchema : Schema Unit where
  key := lit "id"
  ver := lit "ver"
  others _ := []
  read _ := some ()
  extVal _ := 0
  ver_ne_nil := by decide
  key_ne_ver := by decide

def race : List (Step Unit) :=
  let order := [(lit "id", lit "1")]
  [.assign 0 { key := lit "1", ver := 0, fields := () }, .save 0 order, .exec 0, .receive 0,
    .fetch 0, .fetch 1, .save 0 order, .save 1 order, .exec 1, .exec 0, .receive 0, .receive 1]

/-- Of two saves of the version that both fetched, the one that is executed first is accepted. -/
def Raced {R A : Type} (repo : Repository Unit R A) (record : R) : Prop :=
  ∃ s, run repo.step { record := record } race = some s ∧
    s.returned.map (fun r => (r.err, r.ver)) =
      [(none, 1), (some errVersionMismatch, 1), (none, 2)] ∧
    s.log.Pairwise fun a b => a.succeeded = true → b.succeeded = true → a.offered < b.offered

theorem NoLostUpdate.raced {R A : Type} {repo : Repository Unit R A} {Good : R → Prop} {record : R}
    (h : NoLostUpdate repo Good) (hgood : Good record)
    (hguard : Machine.Guarded repo.step InRange { record := record } race)
    (hrun : ∃ s, run repo.step { record := record } race = some s ∧
      s.returned.map (fun r => (r.err, r.ver)) =
        [(none, 1), (some errVersionMismatch, 1), (none, 2)]) : Raced repo record := by
  obtain ⟨s, hrun, hreturned⟩ := hrun
  obtain ⟨-, -, -, -, hincreasing⟩ := h record race s hgood hguard hrun
  exact ⟨s, hrun, hreturned, hincreasing⟩

end Rueidis.Om
