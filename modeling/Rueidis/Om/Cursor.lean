import Rueidis.Message.Total
import Rueidis.Library.History
import Rueidis.Library.Machine

/-!
# The cursor of an aggregation

`AggregateCursor.Read` hands out the first page and then asks the server for page after page.  It
stores the cursor id of an answer whether or not the answer is an error.
-/

namespace Rueidis

open Faults List Machine

abbrev Page := List (Option (GoMap Bytes))

/-- The cursor id that `AsFtAggregateCursor` returns, beside a page or beside an error. -/
def RedisMessage.ftCursor (m : RedisMessage) : Int64 :=
  match m.withCursor with
  | some (_, cursor) => cursor.intlen
  | none => 0

def RedisResult.asFtAggregateCursor (r : RedisResult) : Int64 × Conv Page :=
  match r.err with
  | some e => (0, .error (.err e))
  | none => (r.val.ftCursor, (fun answer => answer.2.docs) <$> r.val.asFtAggregateCursor)

/-! ## Answers that are errors -/

/-- The reply of a search in RESP3 has an entry for errors, and there are some. -/
def errorEntry : List RedisMessage → Bool
  | k :: v :: rest => decide (k.string = lit "error" ∧ v.values ≠ []) || errorEntry rest
  | _ => false

/-- An error answer of FT.AGGREGATE: an error or a null, a map that reports errors, or a reply which
is no map and has no elements. -/
def RedisMessage.isFtError (m : RedisMessage) : Bool :=
  m.error.isSome || if m.isMap then errorEntry m.values else m.values.isEmpty

/-- The answer does not take the cursor id `id` away: it is a page, or an array of two of which the
first is an error answer and the second is this id. -/
def RedisResult.KeepsId (r : RedisResult) (id : Int64) : Prop :=
  r.err = none ∧
    match r.val.withCursor with
    | some (reply, cursor) => reply.isFtError = true → cursor.intlen = id
    | none => r.val.isFtError = false

section Errors

variable {m : RedisMessage}

theorem reports_map {ε π α β : Type} (g : α → β) (x : Fallible ε π α) :
    reports (g <$> x) = reports x := by
  cases x with
  | ok a => rfl
  | error e => cases e <;> rfl

theorem reports_ftPairs {δ : Type} {record : RedisMessage → Conv δ}
    (hrec : ∀ r, reports (record r) = false) (s : FtReply δ) (vs : List RedisMessage)
    (hsafe : panics (pairs (ftPair record) s vs) = false) :
    reports (pairs (ftPair record) s vs) = errorEntry vs := by
  induction s, vs using eachPair.induct with
  | case1 s => rfl
  | case2 s k =>
    rw [pairs, eachPair, ftPair]
    split_ifs <;> rfl
  | case3 s k v rest ih =>
    rw [pairs, eachPair] at hsafe ⊢
    by_cases herror : k.string = lit "error" ∧ v.values ≠ []
    · obtain ⟨e, he⟩ := ftPair_error record s herror.1 herror.2
      rw [he, errorEntry, decide_eq_true herror]
      rfl
    rw [errorEntry, decide_eq_false herror, Bool.false_or]
    by_cases hresults : k.string = lit "results"
    · rw [ftPair_results hresults, bind_assoc] at hsafe ⊢
      have hall : ∀ r ∈ v.values, panics (record r) = false := by
        intro r hr
        by_contra hp
        have hm := panics_mapM_of_mem (fun r _ => hrec r) hr ((Bool.not_eq_false _).mp hp)
        rw [panics_bind hm] at hsafe
        cases hsafe
      obtain ⟨docs, hdocs⟩ := mapM_total fun r hr => exists_ok (hrec r) (hall r hr)
      rw [hdocs] at hsafe ⊢
      exact ih _ hsafe
    · obtain ⟨s', hs⟩ := ftPair_other record s hresults herror
      rw [hs] at hsafe ⊢
      exact ih s' hsafe

theorem reports_asFtAggregate (hsafe : panics m.asFtAggregate = false) :
    reports m.asFtAggregate = m.isFtError := by
  unfold RedisMessage.asFtAggregate RedisMessage.checked RedisMessage.isFtError at *
  cases herr : m.error with
  | some err => rfl
  | none =>
    rw [herr] at hsafe
    by_cases hmap : m.isMap = true
    · rw [if_pos hmap] at hsafe ⊢
      rw [if_pos hmap]
      exact reports_ftPairs reports_ftAggregateRecord {} m.values hsafe
    · rw [if_neg hmap, if_neg hmap]
      cases m.values with
      | nil => rfl
      | cons total rest =>
        obtain ⟨docs, hdocs⟩ := mapM_total fun v (_ : v ∈ rest) => strMapOrNil_total v
        change reports ((FtReply.mk total.intlen) <$> rest.mapM strMapOrNil) = false
        rw [hdocs]
        rfl

theorem keepsId_iff {r : RedisResult} {id : Int64} (hid : id ≠ 0)
    (hsafe : panics r.asFtAggregateCursor.2 = false) :
    r.KeepsId id ↔ (reports r.asFtAggregateCursor.2 = true → r.asFtAggregateCursor.1 = id) := by
  obtain ⟨err, m⟩ := r
  cases err with
  | some err => exact iff_of_false (fun h => nomatch h.1) (fun h => hid (h rfl).symm)
  | none =>
    unfold RedisResult.KeepsId RedisResult.asFtAggregateCursor RedisMessage.asFtAggregateCursor
      RedisMessage.ftCursor at *
    dsimp only at hsafe ⊢
    rw [panics_map] at hsafe
    rw [reports_map, and_iff_right rfl]
    cases hnested : m.withCursor with
    | some nested =>
      rw [hnested] at hsafe
      dsimp only at hsafe ⊢
      rw [panics_map] at hsafe
      rw [reports_map, reports_asFtAggregate hsafe]
    | none =>
      rw [hnested] at hsafe
      dsimp only at hsafe ⊢
      rw [panics_map] at hsafe
      rw [reports_map, reports_asFtAggregate hsafe, ← Bool.not_eq_true]
      exact ⟨fun h herr => absurd herr h, fun h herr => hid (h herr).symm⟩

end Errors

namespace Om

variable {answer : RedisResult} {first : Option Page}

structure AggregateCursor where
  /-- The page of the initial reply, until it is read; `none` is a nil slice. -/
  first : Option Page
  id : Int64

variable {c c' : AggregateCursor}

inductive Outcome where
  | page (docs : Page)
  | failed (err : Err)
  | endOfCursor

/-- The answer is looked at only where the server is asked; its conversion may panic. -/
def AggregateCursor.read (c : AggregateCursor) (answer : RedisResult) :
    Option (AggregateCursor × Outcome) :=
  match c.first with
  | some first => some ({ c with first := none }, .page first)
  | none =>
    if c.id = 0 then some (c, .endOfCursor)
    else match answer.asFtAggregateCursor with
      | (id, .ok docs) => some ({ c with id }, .page docs)
      | (id, .error (.err e)) => some ({ c with id }, .failed e)
      | (_, .error (.panic _)) => none

structure Reading where
  before : AggregateCursor
  answer : RedisResult
  out : Outcome
  after : AggregateCursor

structure Reader where
  cursor : AggregateCursor
  log : List Reading := []

variable {s t : Reader}

def Reader.step (s : Reader) (answer : RedisResult) : Option Reader :=
  (s.cursor.read answer).map fun r => ⟨r.1, s.log ++ [⟨s.cursor, answer, r.2, r.1⟩]⟩

namespace Reading

def returned (r : Reading) : Option Page :=
  match r.out with
  | .page docs => some docs
  | _ => none

def received (r : Reading) : Option Page :=
  if r.before.first.isNone ∧ r.before.id ≠ 0 then r.answer.asFtAggregateCursor.2.toOption else none

end Reading

def DeliveredLast (log : List Reading) : Prop :=
  ∃ r ∈ log, r.returned.isSome ∧ r.after.id = 0

structure Faithful (first : Option Page) (log : List Reading) : Prop where
  kept : ∀ r ∈ log, ∀ e, r.out = .failed e → r.after = r.before
  ended : ∀ earlier r later, log = earlier ++ r :: later → r.out = .endOfCursor →
    DeliveredLast earlier
  pages : log ≠ [] →
    log.filterMap Reading.returned = first.getD [] :: log.filterMap Reading.received

/-- No answer that was asked for takes the id away. -/
def CarriesId (log : List Reading) : Prop :=
  ∀ r ∈ log, r.before.first = none → r.before.id ≠ 0 → r.answer.KeepsId r.before.id

/-! ## What one read does -/

inductive Reads (c : AggregateCursor) (answer : RedisResult) : AggregateCursor → Outcome → Prop
  | given {docs} (hfirst : c.first = some docs) :
    Reads c answer { c with first := none } (.page docs)
  | ended (hfirst : c.first = none) (hid : c.id = 0) : Reads c answer c .endOfCursor
  | page {docs} (hfirst : c.first = none) (hid : c.id ≠ 0)
    (hanswer : answer.asFtAggregateCursor.2 = .ok docs) :
    Reads c answer { c with id := answer.asFtAggregateCursor.1 } (.page docs)
  | failed {e} (hfirst : c.first = none) (hid : c.id ≠ 0)
    (hanswer : answer.asFtAggregateCursor.2 = .error (.err e)) :
    Reads c answer { c with id := answer.asFtAggregateCursor.1 } (.failed e)

theorem Reads.after_eq {e : Err} (h : Reads c answer c' (.failed e)) :
    c' = { c with id := answer.asFtAggregateCursor.1 } := by
  cases h with
  | failed => rfl

/-- A read that fails keeps the id exactly if the answer does. -/
theorem Reads.keepsId_iff {out : Outcome} (h : Reads c answer c' out) :
    (c.first = none → c.id ≠ 0 → answer.KeepsId c.id) ↔
      ∀ e, out = .failed e → answer.asFtAggregateCursor.1 = c.id := by
  cases h with
  | given hfirst =>
    refine iff_of_true (fun hnone => ?_) nofun
    cases hfirst.symm.trans hnone
  | ended hfirst hid => exact iff_of_true (fun _ h => absurd hid h) nofun
  | page hfirst hid hanswer =>
    have hkeeps := Rueidis.keepsId_iff hid (congrArg panics hanswer)
    rw [hanswer] at hkeeps
    exact iff_of_true (fun _ _ => hkeeps.mpr nofun) nofun
  | @failed e hfirst hid hanswer =>
    have hkeeps := Rueidis.keepsId_iff hid (congrArg panics hanswer)
    rw [hanswer] at hkeeps
    constructor
    · intro h e' _
      exact hkeeps.mp (h hfirst hid) rfl
    · intro h _ _
      exact hkeeps.mpr fun _ => h e rfl

theorem reads_of_step (h : s.step answer = some t) :
    ∃ c out, Reads s.cursor answer c out ∧ t = ⟨c, s.log ++ [⟨s.cursor, answer, out, c⟩]⟩ := by
  rw [Reader.step, Option.map_eq_some_iff] at h
  obtain ⟨⟨c, out⟩, hread, rfl⟩ := h
  refine ⟨c, out, ?_, rfl⟩
  simp only [AggregateCursor.read] at hread
  split at hread
  next first hfirst =>
    cases hread
    exact .given hfirst
  next hfirst =>
    split_ifs at hread with hid
    · cases hread
      exact .ended hfirst hid
    · split at hread
      next id docs hanswer =>
        cases hread
        have := Reads.page (c := s.cursor) hfirst hid (congrArg Prod.snd hanswer)
        rwa [hanswer] at this
      next id e hanswer =>
        cases hread
        have := Reads.failed (c := s.cursor) hfirst hid (congrArg Prod.snd hanswer)
        rwa [hanswer] at this
      next => cases hread

/-! ## Whole sequences of reads -/

structure Inv (first : Option Page) (s : Reader) : Prop where
  start : s.log = [] → s.cursor.first = first
  opened : s.log ≠ [] → s.cursor.first = none
  pages : s.log ≠ [] → s.log.filterMap Reading.returned =
    first.toList ++ s.log.filterMap Reading.received
  reads : ∀ r ∈ s.log, Reads r.before r.answer r.after r.out
  zero : first.isSome → CarriesId s.log → s.log ≠ [] → s.cursor.id = 0 → DeliveredLast s.log
  ended : first.isSome → CarriesId s.log → ∀ earlier r later, s.log = earlier ++ r :: later →
    r.out = .endOfCursor → DeliveredLast earlier

theorem Inv.log_ne_nil (inv : Inv first s) (hsome : first.isSome) (hfirst : s.cursor.first = none) :
    s.log ≠ [] := by
  intro hnil
  rw [← inv.start hnil, hfirst] at hsome
  cases hsome

theorem Inv.step (inv : Inv first s) (h : s.step answer = some t) : Inv first t := by
  obtain ⟨c, out, hreads, rfl⟩ := reads_of_step h
  have hcarried (hcarry : CarriesId (s.log ++ [⟨s.cursor, answer, out, c⟩])) : CarriesId s.log :=
    fun r hr => hcarry r (mem_append_left _ hr)
  refine ⟨by simp, fun _ => ?_, fun _ => ?_, ?_, ?_, ?_⟩
  · cases hreads with
    | given hfirst => rfl
    | ended hfirst => exact hfirst
    | page hfirst => exact hfirst
    | failed hfirst => exact hfirst
  · -- Only the very first read finds a first page; after it, pages are returned as they arrive.
    simp only [filterMap_append, filterMap_cons, filterMap_nil, Reading.returned, Reading.received]
    have hold (hfirst : s.cursor.first = none) :
        s.log.filterMap Reading.returned = first.toList ++ s.log.filterMap Reading.received := by
      by_cases hnil : s.log = []
      · rw [hnil, ← inv.start hnil, hfirst]
        rfl
      · exact inv.pages hnil
    cases hreads with
    | given hfirst =>
      have hnil : s.log = [] := by
        by_contra hne
        simp [inv.opened hne] at hfirst
      simp [hnil, ← inv.start hnil, hfirst]
    | ended hfirst hid => simp [hold hfirst, hid]
    | page hfirst hid hanswer => simp [hold hfirst, hfirst, hid, hanswer, Except.toOption]
    | failed hfirst hid hanswer => simp [hold hfirst, hfirst, hid, hanswer, Except.toOption]
  · exact forall_mem_append.mpr ⟨inv.reads, forall_mem_singleton.mpr hreads⟩
  · intro hsome hcarry _ hzero
    cases hreads with
    | given | page => exact ⟨_, mem_concat_self, rfl, hzero⟩
    | ended hfirst hid =>
      have ⟨r, hr, hlast⟩ := inv.zero hsome (hcarried hcarry) (inv.log_ne_nil hsome hfirst) hid
      exact ⟨r, mem_append_left _ hr, hlast⟩
    | failed hfirst hid hanswer =>
      have hkept := (Reads.failed hfirst hid hanswer).keepsId_iff.mp (hcarry _ mem_concat_self) _ rfl
      exact absurd (hkept.symm.trans hzero) hid
  · intro hsome hcarry earlier r later heq hout
    rcases History.snoc_eq_append_cons heq with ⟨-, rfl, rfl⟩ | ⟨l, -, hl⟩
    · cases hreads with
      | ended hfirst hid => exact inv.zero hsome (hcarried hcarry) (inv.log_ne_nil hsome hfirst) hid
      | _ => cases hout
    · exact inv.ended hsome (hcarried hcarry) earlier r l hl hout

/-- A sequence of reads is faithful exactly where the first page is not nil and no answer that was
asked for is an error without the id of the cursor. -/
theorem aggregateCursor_faithful_iff (c : AggregateCursor) (answers : List RedisResult) (s : Reader)
    (hrun : run Reader.step ⟨c, []⟩ answers = some s) :
    Faithful c.first s.log ↔ (s.log ≠ [] → c.first.isSome) ∧ CarriesId s.log := by
  have inv : Inv c.first s :=
    run_invariant _ (fun _ _ _ inv => inv.step)
      ⟨fun _ => rfl, fun h => absurd rfl h, fun h => absurd rfl h, by simp, fun _ _ h => absurd rfl h,
        by simp⟩ hrun
  constructor
  · intro faithful
    constructor
    · intro hne
      -- A nil first page is never returned.
      by_contra hnone
      have hpages := faithful.pages hne
      rw [inv.pages hne, Option.not_isSome_iff_eq_none.mp hnone] at hpages
      simpa using congrArg length hpages
    · intro r hr
      have hreads := inv.reads r hr
      refine hreads.keepsId_iff.mpr fun e hout => ?_
      rw [hout] at hreads
      exact congrArg AggregateCursor.id (hreads.after_eq.symm.trans (faithful.kept r hr e hout))
  · rintro ⟨hfirst, hcarry⟩
    refine ⟨fun r hr e hout => ?_, fun earlier r later heq => ?_, fun hne => ?_⟩
    · have hreads := inv.reads r hr
      have hkept := hreads.keepsId_iff.mp (hcarry r hr) e hout
      rw [hout] at hreads
      rw [hreads.after_eq, hkept]
    · exact inv.ended (hfirst (by simp [heq])) hcarry earlier r later heq
    · have ⟨docs, hdocs⟩ := Option.isSome_iff_exists.mp (hfirst hne)
      rw [inv.pages hne, hdocs]
      rfl

/-- A read that runs into its deadline: the next one reports the end, though no page said so. -/
theorem aggregateCursor_loses_cursor : ∃ s,
    run Reader.step ⟨⟨some [], 7⟩, []⟩ [{}, ⟨some .deadlineExceeded, {}⟩, {}] = some s ∧
      s.log.map Reading.out = [.page [], .failed .deadlineExceeded, .endOfCursor] ∧
      ¬ Faithful (some []) s.log := by
  refine ⟨_, rfl, rfl, fun faithful => ?_⟩
  have hkept := faithful.kept _ (by exact .tail _ (.head _)) .deadlineExceeded rfl
  exact absurd (congrArg AggregateCursor.id hkept) (by decide)

theorem aggregateCursor_faithful_iff_two_pages :
    let last : RedisMessage :=
      { typ := typeArray, array := some [{ typ := typeArray, array := some [{}] }, {}] }
    ∃ s, run Reader.step ⟨⟨some [], 7⟩, []⟩ [{}, ⟨none, last⟩, {}] = some s ∧
      s.log.map Reading.out = [.page [], .page [], .endOfCursor] ∧ Faithful (some []) s.log := by
  intro last
  refine ⟨_, rfl, rfl, ?_⟩
  refine (aggregateCursor_faithful_iff ⟨some [], 7⟩ [{}, ⟨none, last⟩, {}] _ rfl).mpr ⟨fun _ => rfl, ?_⟩
  -- only the second read asks the server
  intro r hr hfirst hid
  rcases hr with _ | ⟨_, _ | ⟨_, _ | ⟨_, ⟨⟩⟩⟩⟩
  · cases hfirst
  · exact ⟨rfl, nofun⟩
  · exact absurd rfl hid

end Om

end Rueidis
