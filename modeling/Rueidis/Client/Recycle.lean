import Rueidis.Client.Recovery
import Rueidis.Library.Recycling

/-!
# Commands that go back to their pool

A recycled command is cleared and may be another caller's at once, so it must not be sent again nor be
recycled twice.  All clients but one recycle after the last attempt; the dedicated single client
recycles while it goes through the replies, and a later reply may still ask for another attempt.
-/

namespace Rueidis

open List Recycling

variable {attempts : List Attempt} {hasLftm : Bool} {fuel : Nat}

def CmdEvent.uses : CmdEvent → Nat → Prop
  | .sent positions, i => i ∈ positions
  | .put _, _ => False

def CmdEvent.frees : CmdEvent → Nat → Prop
  | .sent _, _ => False
  | .put j, i => i = j

/-- No command is recycled twice, and none is sent after it was recycled. -/
def RecyclesSafely (events : List CmdEvent) : Prop :=
  Recycling.Safe CmdEvent.uses CmdEvent.frees events

def OnlySends (events : List CmdEvent) : Prop := ∀ ev ∈ events, ∀ i, ¬ ev.frees i

theorem OnlySends.append {xs ys : List CmdEvent} (hx : OnlySends xs) (hy : OnlySends ys) :
    OnlySends (xs ++ ys) := fun ev hev =>
  (mem_append.mp hev).elim (hx ev) (hy ev)

theorem onlySends_nil : OnlySends [] := fun _ h => (nomatch h)

theorem sentEvents_onlySends (positions : List Nat) (a : Attempt) :
    OnlySends (sentEvents positions a) := by
  intro ev hev i hfree
  rcases mem_cons.mp hev with rfl | hmem
  · exact hfree
  · obtain ⟨r, -, rfl⟩ := mem_map.mp hmem
    exact hfree

variable {multi : List Completed} {i rounds k : Nat} {resps : Option (List RedisResult)}
  {out : Outcome} {a : Attempt}

theorem putEvents_safe {puts : List Nat} (h : puts.Nodup) :
    RecyclesSafely (putEvents multi puts) := by
  unfold putEvents RecyclesSafely Recycling.Safe
  rw [pairwise_map]
  refine (h.filter _).imp fun {i j} hne k hk => ⟨fun hk' => hne ?_, id⟩
  exact Eq.trans (Eq.symm hk) hk'

theorem putsFrom_cons (i : Nat) (resp : RedisResult) (rest : List RedisResult) :
    putsFrom i (resp :: rest) =
      if resp.nonRedisError.isNone then i :: putsFrom (i + 1) rest else putsFrom (i + 1) rest := by
  unfold putsFrom
  rw [zipIdx_cons, filterMap_cons]
  by_cases h : resp.nonRedisError.isNone = true
  · simp only [if_pos h]
  · simp only [if_neg h]

theorem putsFrom_spec {resps : List RedisResult} :
    (putsFrom i resps).Nodup ∧ ∀ p ∈ putsFrom i resps, i ≤ p ∧ p < i + resps.length := by
  induction resps generalizing i with
  | nil => exact ⟨nodup_nil, fun p hp => (nomatch hp)⟩
  | cons resp rest ih =>
    obtain ⟨hnodup, hbound⟩ := ih (i := i + 1)
    have hrest : ∀ p ∈ putsFrom (i + 1) rest, i + 1 ≤ p ∧ p < i + (rest.length + 1) := by
      intro p hp
      have := hbound p hp
      omega
    rw [putsFrom_cons, length_cons]
    split
    · refine ⟨nodup_cons.mpr ⟨fun hmem => ?_, hnodup⟩, fun p hp => ?_⟩
      · have := (hrest i hmem).1
        omega
      · rcases mem_cons.mp hp with rfl | hmem
        · omega
        · have := hrest p hmem
          omega
    · refine ⟨hnodup, fun p hp => ?_⟩
      have := hrest p hp
      omega

/-! ## Attempts -/

def Attempt.PutsOnce (multi : List Completed) (a : Attempt) : Prop :=
  a.puts.Nodup ∧ ∀ p ∈ a.puts, p < multi.length

theorem Outcome.events_cons (multi : List Completed) (a : Attempt) (later : List Attempt)
    (resps : Option (List RedisResult)) :
    Outcome.events multi ⟨a :: later, resps⟩ = sentEvents (range multi.length) a ++
      (putEvents multi a.puts ++ Outcome.events multi ⟨later, resps⟩) := by
  unfold Outcome.events
  rw [flatMap_cons, append_assoc]

theorem Outcome.safe_of_last (hputs : ∀ a ∈ attempts, a.PutsOnce multi)
    (h : ∀ a ∈ attempts.dropLast, a.puts = []) :
    RecyclesSafely (Outcome.events multi ⟨attempts, resps⟩) := by
  induction attempts with
  | nil => exact Pairwise.nil
  | cons a later ih =>
    rw [Outcome.events_cons]
    refine (safe_append_iff (sentEvents_onlySends _ a)).mpr ?_
    cases later with
    | nil =>
      change RecyclesSafely (putEvents multi a.puts ++ [])
      rw [append_nil]
      exact putEvents_safe (hputs a (mem_cons_self ..)).1
    | cons b later =>
      rw [h a (mem_cons_self ..)]
      exact ih (fun b hb => hputs b (mem_cons_of_mem a hb))
        fun b hb => h b (mem_cons_of_mem a hb)

theorem Outcome.last_of_safe (hputs : ∀ a ∈ attempts, a.PutsOnce multi)
    (hunpinned : ∀ cmd ∈ multi, cmd.cs.r = 0)
    (h : RecyclesSafely (Outcome.events multi ⟨attempts, resps⟩)) :
    ∀ a ∈ attempts.dropLast, a.puts = [] := by
  induction attempts with
  | nil => exact fun a ha => (nomatch ha)
  | cons a later ih =>
    rw [Outcome.events_cons] at h
    have hrest := (safe_append_iff (sentEvents_onlySends _ a)).mp h
    cases later with
    | nil => exact fun a ha => (nomatch ha)
    | cons b later =>
      have hlater : RecyclesSafely (Outcome.events multi ⟨b :: later, resps⟩) :=
        (pairwise_append.mp hrest).2.1
      have hnone : a.puts = [] := by
        by_contra hsome
        obtain ⟨p, hp⟩ := exists_mem_of_ne_nil a.puts hsome
        have hlt := (hputs a (mem_cons_self ..)).2 p hp
        have hput : CmdEvent.put p ∈ putEvents multi a.puts := by
          refine mem_map.mpr ⟨p, mem_filter.mpr ⟨hp, ?_⟩, rfl⟩
          rw [getD_eq_getElem?_getD, getElem?_eq_getElem hlt, Option.getD_some,
            hunpinned _ (getElem_mem hlt)]
          rfl
        -- the next attempt sends the whole batch, and so this command
        have hsent : CmdEvent.sent (range multi.length) ∈
            Outcome.events multi ⟨b :: later, resps⟩ := by
          rw [Outcome.events_cons]
          exact mem_append_left _ (mem_cons_self ..)
        have hfree : (CmdEvent.put p).frees p := rfl
        have huse : (CmdEvent.sent (range multi.length)).uses p := mem_range.mpr hlt
        exact not_safe_of_use hput hsent hfree huse hrest
      intro a' ha'
      rcases mem_cons.mp ha' with rfl | hmem
      · exact hnone
      · exact ih (fun b hb => hputs b (mem_cons_of_mem a hb)) hlater a' hmem

def Outcome.PutsLast (multi : List Completed) (out : Outcome) : Prop :=
  (∀ a ∈ out.attempts, a.PutsOnce multi) ∧ ∀ a ∈ out.attempts.dropLast, a.puts = []

theorem Outcome.PutsLast.safe (h : out.PutsLast multi) :
    RecyclesSafely (out.events multi) := safe_of_last h.1 h.2

theorem putsLast_nil :
    Outcome.PutsLast multi ⟨[], resps⟩ := ⟨fun _ h => (nomatch h), fun _ h => (nomatch h)⟩

theorem Attempt.putsOnce_of_nil (h : a.puts = []) : a.PutsOnce multi := by
  unfold Attempt.PutsOnce
  rw [h]
  exact ⟨nodup_nil, fun _ h => (nomatch h)⟩

theorem putsLast_one (h : a.PutsOnce multi) : Outcome.PutsLast multi ⟨[a], resps⟩ := by
  refine ⟨fun a' ha => ?_, fun _ h => (nomatch h)⟩
  obtain rfl := mem_singleton.mp ha
  exact h

theorem Outcome.PutsLast.after (h : out.PutsLast multi) (ha : a.puts = []) :
    (out.after a).PutsLast multi := by
  refine ⟨fun b hb => ?_, fun b hb => ?_⟩
  · rcases mem_cons.mp hb with rfl | hmem
    · exact Attempt.putsOnce_of_nil ha
    · exact h.1 b hmem
  · obtain ⟨attempts, resps⟩ := out
    cases attempts with
    | nil => cases hb
    | cons a' later =>
      rcases mem_cons.mp hb with rfl | hmem
      · exact ha
      · exact h.2 b hmem

theorem sendRecovering_puts {scan : List RedisResult → Option Nat}
    {call : Nat → List Completed → List RedisResult} {sent : Attempt × Bool}
    (h : sendRecovering hasLftm scan call multi fuel = sent) : sent.1.puts = [] := by
  subst h
  cases hasLftm with
  | false => rfl
  | true => rfl

theorem putsOnce_all {answer resps : List RedisResult} {resends : List Resend}
    (h : resps.length = multi.length) :
    Attempt.PutsOnce multi ⟨answer, resends, resps, putsFrom 0 resps⟩ := by
  refine ⟨putsFrom_spec.1, fun p hp => ?_⟩
  have := (putsFrom_spec.2 p hp).2
  omega

/-! ## Clients that recycle at the end -/

theorem doMultiLoop_putsLast {retry : Bool} {pick : Nat → Conn}
    {again : Nat → Nat → Option Err → Bool} :
    (doMultiLoop hasLftm retry pick again multi fuel rounds k).PutsLast multi := by
  induction rounds generalizing k with
  | zero => exact putsLast_nil
  | succ rounds ih =>
    rw [doMultiLoop]
    split
    · rename_i a hsend
      exact putsLast_one (Attempt.putsOnce_of_nil (sendRecovering_puts hsend))
    · rename_i a hsend
      split
      · exact ih.after (sendRecovering_puts hsend)
      · refine putsLast_one (putsOnce_all ?_)
        have haligned : (sendRecovering hasLftm (expiredFrom multi 0 0) ((pick k).doMulti k) multi
            fuel).1.Aligned multi := sendRecovering_scanned.1
        rw [hsend] at haligned
        exact haligned.1

theorem DedicatedClusterClient.doMultiLoop_putsLast {c : DedicatedClusterClient} {slot : UInt16}
    (h : c.doMultiLoop multi slot rounds k = .ok out) : out.PutsLast multi := by
  induction rounds generalizing k out with
  | zero =>
    cases h
    exact putsLast_nil
  | succ rounds ih =>
    rw [doMultiLoop] at h
    split at h
    · cases h
    · cases h
      exact putsLast_nil
    · dsimp only at h
      split at h
      · cases h
      · split at h
        · cases h
        · rename_i later hlater
          cases h
          exact (ih hlater).after rfl
      · cases h
        exact putsLast_one (putsOnce_all (c.wire.length_doMulti k 0 multi))

namespace ClusterClient

variable {c : ClusterClient} {k attempts fuel : Nat} {hasInit : Bool}

theorem askingEvents_onlySends (aIndexes : List Nat) (frame : List (Option Nat)) (a : Attempt) :
    OnlySends (askingEvents aIndexes frame a) := by
  intro ev hev i hfree
  rcases mem_cons.mp hev with rfl | hmem
  · exact hfree
  · obtain ⟨r, -, rfl⟩ := mem_map.mp hmem
    exact hfree

variable {r : Retried} {cc : Nat} {re : Retry} {retries : Connretry}

theorem Retried.andThen_onlySends {r' : Retried} {next : Connretry → Except Panic Retried}
    (h : r.andThen next = .ok r') (hr : OnlySends r.events)
    (hnext : ∀ {retries later}, next retries = .ok later → OnlySends later.events) :
    OnlySends r'.events := by
  unfold Retried.andThen at h
  split at h
  · split at h
    · cases h
    · rename_i hlater
      cases h
      exact hr.append (hnext hlater)
  · cases h
    exact hr

theorem doCommands_onlySends (h : c.doCommands k attempts hasInit cc re retries fuel = .ok r) :
    OnlySends r.events := by
  unfold doCommands at h
  split at h
  · cases h
    exact onlySends_nil
  · split at h
    · cases h
      exact sentEvents_onlySends _ _
    · split at h
      · cases h
      · cases h
        exact sentEvents_onlySends _ _

theorem doAskings_onlySends (h : c.doAskings k attempts hasInit cc re retries fuel = .ok r) :
    OnlySends r.events := by
  unfold doAskings at h
  split at h
  · cases h
    exact onlySends_nil
  · split at h
    · cases h
      exact askingEvents_onlySends _ _ _
    · split at h
      · cases h
      · cases h
        exact askingEvents_onlySends _ _ _

theorem doretry_onlySends (h : c.doretry k attempts hasInit cc re retries fuel = .ok r) :
    OnlySends r.events := by
  unfold doretry at h
  split at h
  · cases h
  · rename_i hfirst
    exact Retried.andThen_onlySends h (doCommands_onlySends hfirst) doAskings_onlySends

theorem doRound_onlySends {buckets : List (Nat × Retry)}
    (h : c.doRound k attempts hasInit fuel buckets retries = .ok r) : OnlySends r.events := by
  induction buckets generalizing retries r with
  | nil =>
    cases h
    exact onlySends_nil
  | cons bucket rest ih =>
    rw [doRound] at h
    split at h
    · cases h
    · rename_i hfirst
      exact Retried.andThen_onlySends h (doretry_onlySends hfirst) ih

theorem doMultiLoop_safe {redirects : Nat} {results : List RedisResult} {out : Batch}
    (h : c.doMultiLoop multi hasInit fuel rounds k attempts redirects retries results = .ok out) :
    RecyclesSafely out.events := by
  induction rounds generalizing k attempts redirects retries results out with
  | zero =>
    cases h
    exact Pairwise.nil
  | succ rounds ih =>
    rw [doMultiLoop] at h
    split at h
    · cases h
    · rename_i r hround
      have hsends := doRound_onlySends hround
      have honly : RecyclesSafely r.events := by
        have hsafe : RecyclesSafely (r.events ++ []) :=
          (safe_append_iff hsends).mpr Pairwise.nil
        rwa [append_nil] at hsafe
      dsimp only at h
      split at h
      · cases h
        exact honly
      · split at h
        · cases h
          exact honly
        · cases h
          exact (safe_append_iff hsends).mpr (putEvents_safe putsFrom_spec.1)
        · split at h
          · cases h
          · rename_i hlater
            cases h
            exact (safe_append_iff hsends).mpr (ih hlater)

end ClusterClient

/-! ## The client that recycles in between -/

namespace DedicatedSingleClient

variable {c : DedicatedSingleClient} {multi : List Completed}
  {resps : List RedisResult} {again : Nat → Option Err → Bool}

theorem mem_replyLoop {p : Nat} :
    p ∈ (replyLoop again i resps).1 ↔ ∃ j < resps.length, p = i + j ∧
      (∀ j' ≤ j, again (i + j') (resps.getD j' {}).error = false) ∧
      (resps.getD j {}).nonRedisError.isNone = true := by
  induction resps generalizing i with
  | nil =>
    refine ⟨fun h => (nomatch h), ?_⟩
    rintro ⟨j, hj, -⟩
    cases hj
  | cons resp rest ih =>
    -- the head of the list is position `i`, and the others are those of the rest from `i + 1` on
    have hshift : ∀ j, i + 1 + j = i + (j + 1) := fun j => by omega
    by_cases hagain : again i resp.error = true
    · rw [replyLoop, if_pos hagain]
      refine ⟨fun h => (nomatch h), ?_⟩
      rintro ⟨j, -, -, hnot, -⟩
      have hfirst : again i resp.error = false := hnot 0 (Nat.zero_le j)
      rw [hagain] at hfirst
      cases hfirst
    · have hmem : p ∈ (replyLoop again i (resp :: rest)).1 ↔
          (p = i ∧ resp.nonRedisError.isNone = true) ∨
            p ∈ (replyLoop again (i + 1) rest).1 := by
        rw [replyLoop, if_neg hagain]
        by_cases hok : resp.nonRedisError.isNone = true
        · simp [hok]
        · simp [hok]
      rw [hmem, ih]
      constructor
      · rintro (⟨rfl, hok⟩ | ⟨j, hj, rfl, hnot, hok⟩)
        · refine ⟨0, Nat.succ_pos _, rfl, fun j' hj' => ?_, hok⟩
          obtain rfl : j' = 0 := by omega
          exact Bool.eq_false_iff.mpr hagain
        · refine ⟨j + 1, Nat.succ_lt_succ hj, hshift j, fun j' hj' => ?_, hok⟩
          cases j' with
          | zero => exact Bool.eq_false_iff.mpr hagain
          | succ j' =>
            rw [← hshift]
            exact hnot j' (by omega)
      · rintro ⟨j, hj, rfl, hnot, hok⟩
        cases j with
        | zero => exact .inl ⟨rfl, hok⟩
        | succ j =>
          refine .inr ⟨j, Nat.lt_of_succ_lt_succ hj, (hshift j).symm, fun j' hj' => ?_, hok⟩
          rw [hshift]
          exact hnot (j' + 1) (by omega)

theorem replyLoop_nodup : (replyLoop again i resps).1.Nodup := by
  induction resps generalizing i with
  | nil => exact nodup_nil
  | cons resp rest ih =>
    rw [replyLoop]
    split
    · exact nodup_nil
    · dsimp only
      split
      · refine nodup_cons.mpr ⟨fun hmem => ?_, ih⟩
        obtain ⟨j, -, heq, -⟩ := mem_replyLoop.mp hmem
        omega
      · exact ih

/-- The attempt with number `k` has no reply before the first one that calls for another attempt:
there are transport errors only. -/
def RetriesFirst (c : DedicatedSingleClient) (multi : List Completed) (k : Nat) (a : Attempt) : Prop :=
  ∀ i < a.resps.length, (∀ i' ≤ i, c.again multi k i' (a.resps.getD i' {}).error = false) →
    (a.resps.getD i {}).nonRedisError.isNone = false

def AllRetryFirst (c : DedicatedSingleClient) (multi : List Completed) (k : Nat) (out : Outcome) :
    Prop :=
  ∀ j a, out.attempts[j]? = some a → j + 1 < out.attempts.length → c.RetriesFirst multi (k + j) a

def Looped (c : DedicatedSingleClient) (multi : List Completed) (k : Nat) (a : Attempt) : Prop :=
  a.resps.length = multi.length ∧ a.puts = (replyLoop (c.again multi k) 0 a.resps).1

theorem Looped.putsOnce (h : c.Looped multi k a) : a.PutsOnce multi := by
  unfold Attempt.PutsOnce
  rw [h.2]
  refine ⟨replyLoop_nodup, fun p hp => ?_⟩
  obtain ⟨j, hj, rfl, -⟩ := mem_replyLoop.mp hp
  rw [Nat.zero_add, ← h.1]
  exact hj

theorem Looped.retriesFirst_iff (h : c.Looped multi k a) :
    c.RetriesFirst multi k a ↔ a.puts = [] := by
  rw [h.2, eq_nil_iff_forall_not_mem]
  constructor
  · intro hfirst p hp
    obtain ⟨i, hi, -, hnot, hok⟩ := mem_replyLoop.mp hp
    have herr := hfirst i hi fun i' hi' => by
      have := hnot i' hi'
      rwa [Nat.zero_add] at this
    rw [hok] at herr
    cases herr
  · intro hnone i hi hnot
    refine Bool.eq_false_iff.mpr fun hok =>
      hnone i (mem_replyLoop.mpr ⟨i, hi, ?_, fun i' hi' => ?_, hok⟩)
    · exact (Nat.zero_add i).symm
    · rw [Nat.zero_add]
      exact hnot i' hi'

theorem doMultiLoop_looped {j : Nat} (h : (c.doMultiLoop multi rounds k).attempts[j]? = some a) :
    c.Looped multi (k + j) a := by
  induction rounds generalizing k j with
  | zero => cases h
  | succ rounds ih =>
    have hsent := c.wire.length_doMulti k 0 multi
    rw [doMultiLoop] at h
    split at h
    · cases h
    · dsimp only at h
      split at h
      · rename_i puts hloop
        cases j with
        | zero =>
          cases h
          exact ⟨hsent, by rw [Nat.add_zero, hloop]⟩
        | succ j =>
          have hlater : c.Looped multi (k + 1 + j) a := ih h
          rwa [show k + 1 + j = k + (j + 1) by omega] at hlater
      · rename_i puts hloop
        cases j with
        | zero =>
          cases h
          exact ⟨hsent, by rw [Nat.add_zero, hloop]⟩
        | succ j => cases h

theorem doMultiLoop_safe_iff (hunpinned : ∀ cmd ∈ multi, cmd.cs.r = 0) :
    RecyclesSafely ((c.doMultiLoop multi rounds k).events multi) ↔
      c.AllRetryFirst multi k (c.doMultiLoop multi rounds k) := by
  have hlooped : ∀ {j a}, (c.doMultiLoop multi rounds k).attempts[j]? = some a →
      c.Looped multi (k + j) a := doMultiLoop_looped
  generalize c.doMultiLoop multi rounds k = out at hlooped ⊢
  have hputs : ∀ a ∈ out.attempts, a.PutsOnce multi := by
    intro a ha
    obtain ⟨j, hj⟩ := mem_iff_getElem?.mp ha
    exact (hlooped hj).putsOnce
  constructor
  · intro hsafe j a hj hlt
    refine (hlooped hj).retriesFirst_iff.mpr (Outcome.last_of_safe hputs hunpinned hsafe a ?_)
    refine mem_iff_getElem?.mpr ⟨j, ?_⟩
    rw [getElem?_dropLast, if_pos (by omega), hj]
  · intro hfirst
    refine Outcome.safe_of_last hputs fun a ha => ?_
    obtain ⟨j, hj⟩ := mem_iff_getElem?.mp ha
    rw [getElem?_dropLast] at hj
    split at hj
    · exact (hlooped hj).retriesFirst_iff.mp (hfirst j a hj (by omega))
    · cases hj

end DedicatedSingleClient

/-- The single, the sentinel, the cluster and the dedicated cluster client never send a recycled
command nor recycle one twice.  The dedicated single client does neither, if and only if every
attempt that is followed by another one has transport errors only before the reply that called for
it. -/
theorem doMulti_recycles_iff {multi : List Completed} (hunpinned : ∀ cmd ∈ multi, cmd.cs.r = 0)
    (fuel : Nat) :
    (∀ c : SingleClient, RecyclesSafely ((c.doMulti multi fuel).events multi)) ∧
    (∀ c : SentinelClient, RecyclesSafely ((c.doMulti multi fuel).events multi)) ∧
    (∀ (c : ClusterClient) (picked : Except Err (Connretry × Bool)) (out : ClusterClient.Batch),
      c.doMulti picked multi fuel = .ok out → RecyclesSafely out.events) ∧
    (∀ (c : DedicatedClusterClient) (out : Outcome),
      c.doMulti multi fuel = .ok out → RecyclesSafely (out.events multi)) ∧
    ∀ c : DedicatedSingleClient, RecyclesSafely ((c.doMulti multi fuel).events multi) ↔
      c.AllRetryFirst multi 1 (c.doMulti multi fuel) := by
  refine ⟨fun c => ?_, fun c => ?_, fun c picked out h => ?_, fun c out h => ?_, fun c => ?_⟩
  · unfold SingleClient.doMulti
    split
    · exact putsLast_nil.safe
    · exact doMultiLoop_putsLast.safe
  · unfold SentinelClient.doMulti
    split
    · exact putsLast_nil.safe
    · exact doMultiLoop_putsLast.safe
  · unfold ClusterClient.doMulti at h
    split at h
    · cases h
      exact Pairwise.nil
    · split at h
      · cases h
        exact Pairwise.nil
      · exact ClusterClient.doMultiLoop_safe h
  · unfold DedicatedClusterClient.doMulti at h
    split at h
    · cases h
      exact putsLast_nil.safe
    · split at h
      · cases h
      · exact (DedicatedClusterClient.doMultiLoop_putsLast h).safe
  · unfold DedicatedSingleClient.doMulti
    split
    · exact ⟨fun _ j a hj => (nomatch hj), fun _ => putsLast_nil.safe⟩
    · exact DedicatedSingleClient.doMultiLoop_safe_iff hunpinned

def failingAt (i : Nat) (err : RedisResult) : Conn where
  doMulti attempt _ ml := ml.mapIdx fun j _ =>
    if attempt = 1 ∧ i ≤ j then err else replyOf typeSimpleString "OK"
  length_doMulti _ _ _ := List.length_mapIdx

def dedicatedOn (wire : Conn) : DedicatedSingleClient where
  wire := wire
  retry := true
  mark _ := false
  now _ _ := {}

theorem doMulti_recycles_iff_whole :
    ((dedicatedOn (failingAt 0 (newErrorResult (some (.other "EOF"))))).doMulti
        [getCmd, getCmd] 3).events [getCmd, getCmd] =
      [.sent [0, 1], .sent [0, 1], .put 0, .put 1] ∧
    RecyclesSafely (((dedicatedOn (failingAt 0 (newErrorResult (some (.other "EOF"))))).doMulti
      [getCmd, getCmd] 3).events [getCmd, getCmd]) := by
  refine ⟨by rfl, ((doMulti_recycles_iff (by decide) 3).2.2.2.2 _).mpr ?_⟩
  intro j a hj hlt i hi hnot
  -- the first of the two attempts is tried again at its first reply
  obtain rfl : j = 0 := by
    change j + 1 < 2 at hlt
    omega
  cases hj
  have hfirst := hnot 0 (Nat.zero_le i)
  have hagain : (dedicatedOn (failingAt 0 (newErrorResult (some (.other "EOF"))))).again
      [getCmd, getCmd] 1 0 (some (.other "EOF")) = true := by decide
  exact absurd (hagain.symm.trans hfirst) (by decide)

/-- The second reply is LOADING: the first command is recycled, sent again, and recycled again. -/
theorem loading_reply_resends_recycled :
    ((dedicatedOn (failingAt 1 (replyOf typeSimpleErr "LOADING"))).doMulti
        [getCmd, getCmd] 3).events [getCmd, getCmd] =
      [.sent [0, 1], .put 0, .sent [0, 1], .put 0, .put 1] ∧
    ¬ RecyclesSafely (((dedicatedOn (failingAt 1 (replyOf typeSimpleErr "LOADING"))).doMulti
      [getCmd, getCmd] 3).events [getCmd, getCmd]) := by
  have hevents : ((dedicatedOn (failingAt 1 (replyOf typeSimpleErr "LOADING"))).doMulti
      [getCmd, getCmd] 3).events [getCmd, getCmd] =
        [.sent [0, 1], .put 0] ++ [.sent [0, 1], .put 0, .put 1] := by rfl
  refine ⟨hevents, ?_⟩
  rw [hevents]
  have hfree : (CmdEvent.put 0).frees 0 := rfl
  have huse : (CmdEvent.sent [0, 1]).uses 0 := mem_cons_self ..
  exact not_safe_of_use (mem_cons_of_mem _ (mem_cons_self ..))
    (mem_cons_self ..) hfree huse

end Rueidis
