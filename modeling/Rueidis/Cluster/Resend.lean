import Rueidis.Cluster.Transactions

/-!
# What is sent again

A command that is not retryable may be sent again when it was redirected, since a node that answers
MOVED or ASK has not run it.  After other errors it may have been run.
-/

namespace Rueidis

section Resend

variable {rd : Round} {commands : List Completed} {resps : List RedisResult}

/-- A command that is new in the retries and not retryable is one of the batch, and it, or a command
of its block, was redirected. -/
def DoResult.NoBlindResend (out : DoResult) (given : Connretry) (cIndexes : List Nat)
    (commands : List Completed) (resps : List RedisResult) : Prop :=
  ∀ nc asking, ∀ sent ∈ out.resent given nc asking, sent.2.isRetryable = false →
    ∃ q < commands.length, sent = entryAt cIndexes commands q ∧
      ((resps.getD q {}).redirects = true ∨
        ∃ m e p, Block commands m e ∧ (m ≤ q ∧ q ≤ e) ∧ (m ≤ p ∧ p ≤ e) ∧
          (resps.getD p {}).redirects = true)

def retriedAt (rd : Round) (commands : List Completed) (resps : List RedisResult) (p : Nat) : Bool :=
  !(rd.now p).stop && (rd.retry && (commands.getD p {}).isRetryable &&
    (resps.getD p {}).transient (rd.now p))

theorem asksAgain_of_retriedAt {p : Nat} (h : retriedAt rd commands resps p = true) :
    asksAgain rd commands resps p = true := by
  unfold retriedAt at h
  rw [Bool.and_eq_true] at h
  unfold asksAgain
  rw [h.1, h.2, Bool.or_true, Bool.and_true]

theorem redirects_or_retriedAt {p : Nat} (h : asksAgain rd commands resps p = true) :
    (resps.getD p {}).redirects = true ∨ retriedAt rd commands resps p = true := by
  unfold asksAgain at h
  rw [Bool.and_eq_true, Bool.or_eq_true] at h
  refine h.2.imp_right fun hretry => ?_
  unfold retriedAt
  rw [h.1, hretry, Bool.true_and]

/-- In a transaction under way that has a command which is not retryable, no command inside is
retried, unless the block is redirected as well. -/
def BlocksNotRetried (rd : Round) (commands : List Completed) (resps : List RedisResult) : Prop :=
  rd.hasInit = true → ∀ m e, Block commands m e → (resps.getD m {}).val.string = lit "OK" →
    (∃ q, (m ≤ q ∧ q ≤ e) ∧ (commands.getD q {}).isRetryable = false) →
    (∃ p, m < p ∧ p < e ∧ retriedAt rd commands resps p = true) →
    ∃ p, (m ≤ p ∧ p ≤ e) ∧ (resps.getD p {}).redirects = true

/-- No command that is not retryable is sent again blindly, if and only if no transaction with such
a command is sent again because of an error that may pass. -/
theorem doresultfn_noBlindResend_iff (hlen : resps.length = commands.length) {cIndexes : List Nat}
    (hindexes : cIndexes.length = commands.length) (hnodup : cIndexes.Nodup)
    {retries : Connretry} {out : DoResult}
    (h : doresultfn rd commands resps cIndexes retries = .ok out) :
    out.NoBlindResend retries cIndexes commands resps ↔ BlocksNotRetried rd commands resps := by
  unfold doresultfn at h
  split at h <;> cases h
  rename_i results added hloop
  replace hloop := looped_of_resultLoop hloop
  have hresends : ∀ {p}, p < resps.length →
      resendsAt rd commands resps p = asksAgain rd commands resps p := fun hp =>
    resendsAt_eq (hloop.modes (Nat.zero_le _) hp)
  constructor
  · rintro hblind hinit m e hb hok ⟨q, hq, hnot⟩ ⟨p, hmp, hpe, hretried⟩
    have helen : e < resps.length := by
      rw [hlen]
      exact Boundaries.lt_length_of_hit hb.exec
    have hstart : ((({} : Scan).ei : Int)) ≤ m := by
      show (-1 : Int) ≤ m
      omega
    obtain ⟨nc, mode, hmem⟩ := Looped.block_added hinit hb hok hmp hpe
      ((hresends (by omega)).trans (asksAgain_of_retriedAt hretried)) (by omega) hloop
      (Nat.zero_le p) hstart
    have hpos : q ∈ (Added.block nc mode m e).positions := by
      show q ∈ List.range' m (e + 1 - m)
      rw [List.mem_range'_1]
      omega
    obtain ⟨q', hq'len, heq, hwhy⟩ := hblind nc (decide (mode = .ask)) (entryAt cIndexes commands q)
      ((mem_resent rfl).mpr ⟨_, hmem, decide_eq_true ⟨rfl, rfl⟩, q, hpos, rfl⟩) hnot
    obtain rfl := entryAt_inj hnodup (by omega) (by omega) (congrArg Prod.fst heq)
    rcases hwhy with hred | ⟨m', e', p', hb', hq', hp', hred⟩
    · exact ⟨q, hq, hred⟩
    · obtain ⟨rfl, rfl⟩ := hb.unique hb' hq hq'
      exact ⟨p', hp', hred⟩
  · intro hblocks nc asking sent hsent hnot
    obtain ⟨a, ha, -, q, hq, rfl⟩ := (mem_resent (by rfl)).mp hsent
    replace hnot : (commands.getD q {}).isRetryable = false := hnot
    refine ⟨q, hloop.positions_lt hlen ha hq, rfl, ?_⟩
    obtain ⟨p, hp, -, hr, cm, resp, addr, sc, hadded⟩ := hloop.added ha
    rw [hresends hp] at hr
    have hwhy := redirects_or_retriedAt hr
    rcases redirected_cases hadded with ⟨nc, delay, rfl⟩ | ⟨nc, mi, ei, rfl, hinit, hb, hmi, hei, hok⟩
    · obtain rfl : q = p := List.mem_singleton.mp hq
      refine .inl (hwhy.resolve_right fun hretried => ?_)
      unfold retriedAt at hretried
      rw [hnot] at hretried
      simp at hretried
    · have hin : mi ≤ q ∧ q ≤ ei := by
        have hq' : q ∈ List.range' mi (ei + 1 - mi) := hq
        rw [List.mem_range'_1] at hq'
        omega
      rcases hwhy with hred | hretried
      · exact .inr ⟨mi, ei, p, hb, hin, ⟨by omega, by omega⟩, hred⟩
      · obtain ⟨p', hp', hred⟩ := hblocks hinit mi ei hb hok ⟨q, hin, hnot⟩ ⟨p, hmi, hei, hretried⟩
        exact .inr ⟨mi, ei, p', hb, hin, hp', hred⟩

end Resend

def brokenReply : RedisResult := newErrorResult (some (.other "EOF"))

def retriedGet : DoResult :=
  { clean := false
    results := [brokenReply, brokenReply]
    added := [.single 0 .retry 0 0]
    retries := { m := [(0, { cIndexes := [0], commands := [getCmd] })], retryDelay := 0 } }

theorem doresultfn_noBlindResend_iff_get :
    retriedGet.NoBlindResend {} [0, 1] [getCmd, incrCmd] [brokenReply, brokenReply] := by
  have hrun : doresultfn firstRound [getCmd, incrCmd] [brokenReply, brokenReply] [0, 1] {} =
      .ok retriedGet := by rfl
  refine (doresultfn_noBlindResend_iff (by rfl) (by rfl) (by decide) hrun).mpr (fun _ m e hb => ?_)
  obtain ⟨cmd, hcmd, hmulti⟩ := Boundaries.hit_iff.mp hb.multi
  have hplain : ∀ cmd ∈ [getCmd, incrCmd], isMulti cmd = false := by decide
  rw [hplain cmd (List.mem_of_getElem? hcmd)] at hmulti
  cases hmulti

/-- The connection breaks behind the reply to INCR: the whole transaction is sent again, although it
may have been run. -/
theorem broken_connection_resends_incr :
    ∃ out, doresultfn firstRound [multiCmd, incrCmd, getCmd, execCmd]
        [replyOf typeSimpleString "OK", replyOf typeSimpleString "QUEUED", brokenReply, brokenReply]
        [0, 1, 2, 3] {} = .ok out ∧
      out.retries.m = [(0, { cIndexes := [0, 1, 2, 3],
                             commands := [multiCmd, incrCmd, getCmd, execCmd] })] ∧
      ¬ out.NoBlindResend {} [0, 1, 2, 3] [multiCmd, incrCmd, getCmd, execCmd]
        [replyOf typeSimpleString "OK", replyOf typeSimpleString "QUEUED", brokenReply,
          brokenReply] := by
  refine ⟨_, rfl, rfl, fun hblind => ?_⟩
  -- no reply at all is a redirection
  have hnone : ∀ p, (List.getD [replyOf typeSimpleString "OK", replyOf typeSimpleString "QUEUED",
      brokenReply, brokenReply] p {}).redirects = false := by
    intro p
    match p with
    | 0 | 1 | 2 | 3 => decide
    | p + 4 => rfl
  obtain ⟨q, -, -, hwhy⟩ := hblind 0 false (1, incrCmd) (by decide) (by decide)
  rcases hwhy with hred | ⟨m, e, p, -, -, -, hred⟩
  · cases (hnone q).symm.trans hred
  · cases (hnone p).symm.trans hred

end Rueidis
