import Rueidis.Cluster.Rounds
import Rueidis.Cluster.Transactions

/-!
# Recovery from an expired connection

The scan of the results keeps the position of the MULTI of the transaction it is in, with zero for
none.  So a transaction at the head of the batch is not recognised, and all others are.
-/

namespace Rueidis

open List Boundaries SuffixCalls

variable {r : Resend} {start : Nat}

def Resend.expiredAt (r : Resend) : Nat := r.before.findIdx (·.isExpired)

def Resend.call (r : Resend) : Nat × List RedisResult := (r.start, r.answer)

/-- The commands sent again include all that have no result.  They do not start inside of a
transaction, and with a transaction under way they start at its MULTI. -/
structure Resend.Whole (multi : List Completed) (r : Resend) : Prop where
  le : r.start ≤ r.expiredAt
  outside : ∀ m e, Block multi m e → ¬ (m < r.start ∧ r.start ≤ e)
  underWay : ∀ m e, Block multi m e → m < r.expiredAt → r.expiredAt ≤ e → r.start = m

/-- The connection did not expire inside of a transaction at the head of the batch. -/
def Resend.Clear (multi : List Completed) (r : Resend) : Prop :=
  ∀ e, Block multi 0 e → 0 < r.expiredAt → e < r.expiredAt

/-- Every result is the one of the last call that its command was part of. -/
def Attempt.Aligned (multi : List Completed) (a : Attempt) : Prop :=
  a.resps.length = multi.length ∧
    ∀ k, a.resps[k]? = latest ((0, a.answer) :: a.resends.map Resend.call) k

variable {i fuel k : Nat} {resps : List RedisResult} {hasLftm : Bool} {multi : List Completed}

section Scan

variable {multi : List Completed}

theorem hit_isMulti (i : Nat) : hit isMulti multi i = isMulti (multi.getD i {}) :=
  hit_eq_getD (by decide) i

theorem hit_isExec (i : Nat) : hit isExec multi i = isExec (multi.getD i {}) :=
  hit_eq_getD (by decide) i

theorem hit_boundary_iff : hit boundary multi i = true ↔
    hit isMulti multi i = true ∨ hit isExec multi i = true := by
  rw [hit_eq_getD (d := {}) (by decide), hit_isMulti, hit_isExec, boundary,
    Bool.or_eq_true]

/-- What `txIdx` says before position `i`: the MULTI that has no EXEC yet; zero when there is none
behind the head of the batch. -/
inductive TxIdx (multi : List Completed) (i : Nat) : Nat → Prop
  | outside (h : ∀ k, 0 < k → k < i → hit isMulti multi k = true →
      ∃ j, k < j ∧ j < i ∧ hit isExec multi j = true) : TxIdx multi i 0
  | inside {t : Nat} (hpos : 0 < t) (hlt : t < i) (hmulti : hit isMulti multi t = true)
      (hinner : ∀ k, t < k → k < i → hit boundary multi k = false) : TxIdx multi i t

variable {t : Nat}

theorem TxIdx.next (h : TxIdx multi i t) : TxIdx multi (i + 1) (if isMulti (multi.getD i {}) then i
      else if isExec (multi.getD i {}) then 0 else t) := by
  rw [← hit_isMulti, ← hit_isExec]
  by_cases hm : hit isMulti multi i = true
  · rw [if_pos hm]
    rcases Nat.eq_zero_or_pos i with rfl | hpos
    · exact .outside fun k hk hki => by omega
    · exact .inside hpos (Nat.lt_succ_self i) hm fun k hk hki => by omega
  · rw [if_neg hm]
    by_cases he : hit isExec multi i = true
    · rw [if_pos he]
      refine .outside fun k _ hki hk => ⟨i, ?_, Nat.lt_succ_self i, he⟩
      have hne : k ≠ i := by
        rintro rfl
        exact hm hk
      omega
    · rw [if_neg he]
      cases h with
      | outside hopen =>
        refine .outside fun k hpos hki hk => ?_
        have hne : k ≠ i := by
          rintro rfl
          exact hm hk
        obtain ⟨j, hkj, hji, hj⟩ := hopen k hpos (by omega) hk
        exact ⟨j, hkj, by omega, hj⟩
      | inside hpos hlt hmulti hinner =>
        refine .inside hpos (by omega) hmulti fun k htk hki => ?_
        by_cases hk : k = i
        · rw [hk]
          exact Bool.eq_false_iff.mpr fun hb => (hit_boundary_iff.mp hb).elim hm he
        · exact hinner k htk (by omega)

theorem TxIdx.eq_of_block {m e : Nat} (h : TxIdx multi i t) (hb : Block multi m e) (hm : m < i)
    (he : i ≤ e) : t = m := by
  cases h with
  | outside hopen =>
    rcases Nat.eq_zero_or_pos m with rfl | hpos
    · rfl
    · obtain ⟨j, hmj, hji, hj⟩ := hopen m hpos hm hb.multi
      have hin := hb.inner j hmj (by omega)
      rw [hit_boundary_of_exec hj] at hin
      cases hin
  | inside hpos hlt hmulti hinner =>
    -- of two MULTIs before `i` the later one would be inside of the other's range
    rcases Nat.lt_trichotomy t m with hlt' | heq | hgt
    · have hin := hinner m hlt' hm
      rw [hit_boundary_of_multi hb.multi] at hin
      cases hin
    · exact heq
    · have hin := hb.inner t hgt (by omega)
      rw [hit_boundary_of_multi hmulti] at hin
      cases hin

theorem expiredFrom_eq_some (ht : TxIdx multi i t) (h : expiredFrom multi i t resps = some start) :
    ∃ t', TxIdx multi (i + resps.findIdx (·.isExpired)) t' ∧
      resps.findIdx (·.isExpired) < resps.length ∧
      start = if 0 < t' then t' else i + resps.findIdx (·.isExpired) := by
  induction resps generalizing i t with
  | nil => cases h
  | cons resp rest ih =>
    rw [expiredFrom] at h
    by_cases hexp : resp.isExpired = true
    · rw [if_pos hexp] at h
      cases h
      rw [findIdx_cons, hexp]
      exact ⟨t, ht, Nat.succ_pos _, rfl⟩
    · rw [if_neg hexp] at h
      obtain ⟨t', ht', hlt, hstart⟩ := ih ht.next h
      rw [findIdx_cons, Bool.eq_false_iff.mpr hexp]
      have hidx : i + 1 + rest.findIdx (·.isExpired) = i + (rest.findIdx (·.isExpired) + 1) := by
        omega
      rw [hidx] at ht' hstart
      exact ⟨t', ht', Nat.succ_lt_succ hlt, hstart⟩

theorem Resend.whole_iff (h : expiredFrom multi 0 0 r.before = some r.start) :
    r.Whole multi ↔ r.Clear multi := by
  obtain ⟨t, ht, -, hstart⟩ := expiredFrom_eq_some (.outside fun k _ hk => by omega) h
  rw [Nat.zero_add] at ht hstart
  change TxIdx multi r.expiredAt t at ht
  change r.start = if 0 < t then t else r.expiredAt at hstart
  constructor
  · intro hwhole e hb hpos
    by_contra hle
    -- the scan takes the MULTI at zero for no transaction
    have hzero : t = 0 := ht.eq_of_block hb hpos (by omega)
    rw [hzero, if_neg (Nat.lt_irrefl 0)] at hstart
    have := hwhole.underWay 0 e hb hpos (by omega)
    omega
  · intro hclear
    have hunder : ∀ m e, Block multi m e → m < r.expiredAt → r.expiredAt ≤ e → r.start = m := by
      intro m e hb hm he
      have htm := ht.eq_of_block hb hm he
      rcases Nat.eq_zero_or_pos m with rfl | hpos
      · have := hclear e hb hm
        omega
      · rw [hstart, htm, if_pos hpos]
    cases ht with
    | outside hopen =>
      rw [if_neg (Nat.lt_irrefl 0)] at hstart
      refine ⟨Nat.le_of_eq hstart, fun m e hb hin => ?_, hunder⟩
      rw [hstart] at hin
      have := hunder m e hb hin.1 hin.2
      omega
    | inside hpos hlt hmulti hinner =>
      rw [if_pos hpos] at hstart
      refine ⟨by omega, fun m e hb hin => ?_, hunder⟩
      rw [hstart] at hin
      -- a MULTI is neither inside of a block nor its EXEC
      rcases Nat.lt_or_eq_of_le hin.2 with hlt' | heq
      · have hnot := hb.inner t hin.1 hlt'
        rw [hit_boundary_of_multi hmulti] at hnot
        cases hnot
      · rw [heq] at hmulti
        exact not_hit_both hmulti hb.exec

end Scan

/-! ## The recovery -/

section Recover

variable {scan : List RedisResult → Option Nat} {call : Nat → List Completed → List RedisResult}
  {multi : List Completed}

theorem mem_resends_recover {n : Nat} (h : r ∈ (recover scan call multi fuel n resps).resends) :
    scan r.before = some r.start := by
  induction fuel generalizing n resps with
  | zero => cases h
  | succ fuel ih =>
    rw [recover] at h
    split at h
    · cases h
    · rename_i start hscan
      rcases mem_cons.mp h with rfl | hlater
      · exact hscan
      · exact ih hlater

variable (hscan : ∀ resps start, scan resps = some start → start ≤ resps.length)
  (hcall : ∀ n ml, (call n ml).length = ml.length)

include hscan hcall

theorem recover_latest {n : Nat} {calls : List (Nat × List RedisResult)}
    (hlen : resps.length = multi.length) (hlatest : ∀ k, resps[k]? = latest calls k) :
    (recover scan call multi fuel n resps).resps.length = multi.length ∧
      ∀ k, (recover scan call multi fuel n resps).resps[k]? = latest
        (calls ++ (recover scan call multi fuel n resps).resends.map Resend.call) k := by
  induction fuel generalizing n resps calls with
  | zero => exact ⟨hlen, fun k => by rw [recover, map_nil, append_nil, hlatest]⟩
  | succ fuel ih =>
    rw [recover]
    split
    · exact ⟨hlen, fun k => by rw [map_nil, append_nil, hlatest]⟩
    · rename_i start hstart
      have hle := hscan resps start hstart
      have hrs : (call n (multi.drop start)).length + start = resps.length := by
        rw [hcall, length_drop]
        omega
      have hover : (overlay resps (call n (multi.drop start))).length =
          multi.length := (length_overlay (by omega)).trans hlen
      obtain ⟨hlen', hlatest'⟩ := ih hover (overlay_latest hrs hlatest) (n := n + 1)
      refine ⟨hlen', fun k => (hlatest' k).trans ?_⟩
      rw [append_assoc]
      rfl

theorem sendRecovering_aligned : (sendRecovering hasLftm scan call multi fuel).1.Aligned multi := by
  have hfirst : ∀ k, (call 0 multi)[k]? = latest [(0, call 0 multi)] k := by
    intro k
    unfold latest
    rw [foldl_cons, foldl_nil, if_pos (Nat.zero_le k), Nat.sub_zero]
  cases hasLftm with
  | false => exact ⟨hcall 0 multi, hfirst⟩
  | true => exact recover_latest hscan hcall (hcall 0 multi) hfirst

omit hcall

omit hscan

theorem mem_resends_sendRecovering
    (h : r ∈ (sendRecovering hasLftm scan call multi fuel).1.resends) :
    scan r.before = some r.start := by
  cases hasLftm with
  | false => cases h
  | true => exact mem_resends_recover h

theorem expiredFrom_le (h : expiredFrom multi 0 0 resps = some start) : start ≤ resps.length := by
  obtain ⟨t, ht, hlt, hstart⟩ := expiredFrom_eq_some (.outside fun k _ hk => by omega) h
  rw [Nat.zero_add] at ht hstart
  rw [hstart]
  cases ht with
  | outside _ =>
    rw [if_neg (Nat.lt_irrefl 0)]
    omega
  | inside hpos ht' _ _ =>
    rw [if_pos hpos]
    omega

end Recover

/-! ## The clients -/

def Attempt.Scanned (multi : List Completed) (a : Attempt) : Prop :=
  a.Aligned multi ∧ ∀ r ∈ a.resends, expiredFrom multi 0 0 r.before = some r.start

theorem Attempt.Scanned.whole_iff {a : Attempt} (h : a.Scanned multi) :
    (∀ r ∈ a.resends, r.Whole multi) ↔ ∀ r ∈ a.resends, r.Clear multi :=
  forall₂_congr fun _ hr => Resend.whole_iff (h.2 _ hr)

theorem sendRecovering_scanned {cc : Conn} :
    (sendRecovering hasLftm (expiredFrom multi 0 0) (cc.doMulti k) multi fuel).1.Scanned multi :=
  ⟨sendRecovering_aligned (fun _ _ => expiredFrom_le) (cc.length_doMulti k),
    fun _ => mem_resends_sendRecovering⟩

/-- What a call does after a connection expired: it keeps transactions whole, and what it returns
are the results of its last attempt, each in the place of its command. -/
structure Outcome.Recovers (multi : List Completed) (out : Outcome) : Prop where
  whole : ∀ a ∈ out.attempts, ∀ r ∈ a.resends, r.Whole multi
  aligned : ∀ a ∈ out.attempts, a.Aligned multi
  returned : ∀ resps, out.resps = some resps →
    resps = (out.attempts.getLast?.map (·.resps)).getD []

def Outcome.Clear (multi : List Completed) (out : Outcome) : Prop :=
  ∀ a ∈ out.attempts, ∀ r ∈ a.resends, r.Clear multi

section Loop

variable {hasLftm retry : Bool} {pick : Nat → Conn} {again : Nat → Nat → Option Err → Bool}
  {multi : List Completed} {fuel : Nat}

variable {rounds : Nat}

theorem doMultiLoop_scanned :
    ∀ a ∈ (doMultiLoop hasLftm retry pick again multi fuel rounds k).attempts, a.Scanned multi := by
  induction rounds generalizing k with
  | zero => exact fun a ha => nomatch ha
  | succ rounds ih =>
    intro a ha
    have hscanned : ∀ {done}, (sendRecovering hasLftm (expiredFrom multi 0 0)
        ((pick k).doMulti k) multi fuel) = done → done.1.Scanned multi := by
      rintro _ rfl
      exact sendRecovering_scanned
    rw [doMultiLoop] at ha
    split at ha
    · rename_i a' hsend
      obtain rfl := mem_singleton.mp ha
      exact hscanned hsend
    · rename_i a' hsend
      split at ha
      · rcases mem_cons.mp ha with rfl | hlater
        · exact hscanned hsend
        · exact ih a hlater
      · obtain rfl := mem_singleton.mp ha
        exact hscanned hsend

theorem doMultiLoop_returned
    (h : (doMultiLoop hasLftm retry pick again multi fuel rounds k).resps = some resps) :
    (doMultiLoop hasLftm retry pick again multi fuel rounds k).attempts.getLast?.map (·.resps) =
      some resps := by
  induction rounds generalizing k with
  | zero => cases h
  | succ rounds ih =>
    rw [doMultiLoop] at h ⊢
    split at h
    · cases h
    · rename_i a hsend
      split at h
      · rename_i hagain
        have hlast := ih h
        rw [if_pos hagain]
        unfold Outcome.after
        -- the attempts behind this one are not empty, since they have a last one
        rw [getLast?_cons]
        cases hl : (doMultiLoop hasLftm retry pick again multi fuel rounds
            (k + 1)).attempts.getLast? with
        | none =>
          rw [hl] at hlast
          cases hlast
        | some last =>
          rw [hl] at hlast
          exact hlast
      · rename_i hagain
        rw [if_neg hagain]
        exact h

theorem doMultiLoop_recovers_iff :
    (doMultiLoop hasLftm retry pick again multi fuel rounds k).Recovers multi ↔
      (doMultiLoop hasLftm retry pick again multi fuel rounds k).Clear multi := by
  have hscanned : ∀ a ∈ (doMultiLoop hasLftm retry pick again multi fuel rounds k).attempts,
      a.Scanned multi := doMultiLoop_scanned
  constructor
  · exact fun h a ha => (hscanned a ha).whole_iff.mp (h.whole a ha)
  · intro hclear
    refine ⟨fun a ha => (hscanned a ha).whole_iff.mpr (hclear a ha), fun a ha => (hscanned a ha).1, ?_⟩
    intro resps hresps
    rw [doMultiLoop_returned hresps]
    rfl

end Loop

theorem recovers_iff_of_empty :
    Outcome.Recovers multi { resps := some [] } ↔ Outcome.Clear multi { resps := some [] } := by
  refine ⟨fun _ a ha => (nomatch ha),
    fun _ => ⟨fun a ha => (nomatch ha), fun a ha => (nomatch ha), ?_⟩⟩
  rintro resps ⟨⟩
  rfl

section Cluster

variable {rd : Round} {commands : List Completed} {all : List RedisResult}

/-- What `doresultfn` makes of a reply: the reply, or the error of a client that is closing. -/
def IsResultOf (resp result : RedisResult) : Prop :=
  result = resp ∨ result = newErrorResult (some .closing)

theorem resultLoop_results {results : List RedisResult} {sc : Scan} {adds : List Added}
    (h : resultLoop rd commands all i resps sc = .ok (results, adds)) :
    Forall₂ IsResultOf resps results := by
  induction resps generalizing i sc results adds with
  | nil =>
    cases h
    exact .nil
  | cons resp rest ih =>
    rw [resultLoop] at h
    split at h
    · cases h
    · cases h
    · cases h
    · rename_i closing _ _ _
      dsimp only at h
      split at h
      · cases h
      · rename_i hrest
        cases h
        refine .cons ?_ (ih hrest)
        by_cases hc : closing = true
        · exact .inr (if_pos hc)
        · exact .inl (if_neg hc)

end Cluster

namespace ClusterClient

/-- What `doretry` does with the plain commands after a connection expired, and the results it sets
for them. -/
structure Retried.Recovers (re : Retry) (r : Retried) : Prop where
  whole : ∀ a ∈ r.plain, ∀ s ∈ a.resends, s.Whole re.commands
  aligned : ∀ a ∈ r.plain, a.Aligned re.commands
  results : r.done = true → ∀ a ∈ r.plain, ∃ results asked,
    r.results = re.cIndexes.zip results ++ asked ∧ List.Forall₂ IsResultOf a.resps results

def Retried.Clear (re : Retry) (r : Retried) : Prop :=
  ∀ a ∈ r.plain, ∀ s ∈ a.resends, s.Clear re.commands

variable {c : ClusterClient} {k attempts cc fuel : Nat} {hasInit : Bool} {re : Retry}
  {retries : Connretry}

variable {r : Retried}

theorem doAskings_plain (h : c.doAskings k attempts hasInit cc re retries fuel = .ok r) :
    r.plain = [] := by
  unfold doAskings at h
  split at h
  · cases h
    rfl
  · split at h
    · cases h
      rfl
    · split at h
      · cases h
      · cases h
        rfl

theorem doCommands_recovers (h : c.doCommands k attempts hasInit cc re retries fuel = .ok r) :
    (∀ a ∈ r.plain, a.Scanned re.commands) ∧
      (r.done = true → ∀ a ∈ r.plain, ∃ results, r.results = re.cIndexes.zip results ∧
        Forall₂ IsResultOf a.resps results) := by
  have hscanned : ∀ {sent}, c.sendCommands k cc re fuel = sent → sent.1.Scanned re.commands := by
    rintro _ rfl
    exact sendRecovering_scanned
  unfold doCommands at h
  split at h
  · cases h
    exact ⟨fun a ha => (nomatch ha), fun _ a ha => (nomatch ha)⟩
  · split at h
    · rename_i a hsend
      cases h
      refine ⟨fun a' ha => ?_, fun hdone => (nomatch hdone)⟩
      obtain rfl := mem_singleton.mp ha
      exact hscanned hsend
    · rename_i a hsend
      split at h
      · cases h
      · rename_i out hout
        cases h
        refine ⟨fun a' ha => ?_, fun _ a' ha => ?_⟩
        · obtain rfl := mem_singleton.mp ha
          exact hscanned hsend
        · obtain rfl := mem_singleton.mp ha
          unfold doresultfn at hout
          split at hout
          · cases hout
          · rename_i hloop
            cases hout
            exact ⟨_, rfl, resultLoop_results hloop⟩

theorem doretry_recovers_iff (h : c.doretry k attempts hasInit cc re retries fuel = .ok r) :
    r.Recovers re ↔ r.Clear re := by
  -- the askings have a recovery of their own, and leave the plain commands alone
  have hplain : (∀ a ∈ r.plain, a.Scanned re.commands) ∧
      (r.done = true → ∀ a ∈ r.plain, ∃ results asked,
        r.results = re.cIndexes.zip results ++ asked ∧ Forall₂ IsResultOf a.resps results) := by
    unfold doretry at h
    split at h
    · cases h
    · rename_i first hfirst
      obtain ⟨hscanned, hresults⟩ := doCommands_recovers hfirst
      unfold Retried.andThen at h
      split at h
      · rename_i hdone
        split at h
        · cases h
        · rename_i later hlater
          cases h
          rw [doAskings_plain hlater, append_nil]
          refine ⟨hscanned, fun _ a ha => ?_⟩
          obtain ⟨results, heq, hall⟩ := hresults hdone a ha
          exact ⟨results, later.results, by rw [heq], hall⟩
      · rename_i hdone
        cases h
        exact ⟨hscanned, fun hd => absurd hd hdone⟩
  constructor
  · exact fun hr a ha => (hplain.1 a ha).whole_iff.mp (hr.whole a ha)
  · intro hclear
    exact ⟨fun a ha => (hplain.1 a ha).whole_iff.mpr (hclear a ha),
      fun a ha => (hplain.1 a ha).1, hplain.2⟩

end ClusterClient

/-- With a connection lifetime, the clients keep transactions whole and the results in place, if and
only if no connection expires inside of a transaction at the head of the batch. -/
theorem lifetime_recovery_iff (multi : List Completed) (fuel : Nat) :
    (∀ c : SingleClient,
      (c.doMulti multi fuel).Recovers multi ↔ (c.doMulti multi fuel).Clear multi) ∧
    (∀ c : SentinelClient,
      (c.doMulti multi fuel).Recovers multi ↔ (c.doMulti multi fuel).Clear multi) ∧
    ∀ (c : ClusterClient) (k attempts : Nat) (hasInit : Bool) (cc : Nat) (cIndexes aIndexes : List Nat)
      (cAskings : List Completed) (retries : Connretry) (r : ClusterClient.Retried),
      c.doretry k attempts hasInit cc ⟨cIndexes, multi, aIndexes, cAskings⟩ retries fuel = .ok r →
        (r.Recovers ⟨cIndexes, multi, aIndexes, cAskings⟩ ↔
          r.Clear ⟨cIndexes, multi, aIndexes, cAskings⟩) := by
  refine ⟨fun c => ?_, fun c => ?_, fun c k attempts hasInit cc _ _ _ retries r h =>
    ClusterClient.doretry_recovers_iff h⟩
  · unfold SingleClient.doMulti
    split
    · exact recovers_iff_of_empty
    · exact doMultiLoop_recovers_iff
  · unfold SentinelClient.doMulti
    split
    · exact recovers_iff_of_empty
    · exact doMultiLoop_recovers_iff

def expiringAt (i : Nat) : Conn where
  doMulti _ n ml := ml.mapIdx fun j _ =>
    if n = 0 ∧ i ≤ j then newErrorResult (some .connExpired) else replyOf typeSimpleString "OK"
  length_doMulti _ _ _ := List.length_mapIdx

def lifetimeClient (i : Nat) : SingleClient where
  conn := expiringAt i
  retry := false
  hasLftm := true
  now _ _ := {}

theorem lifetime_recovery_iff_second :
    ((lifetimeClient 3).doMulti [getCmd, multiCmd, incrCmd, execCmd] 3).attempts.map
        (·.resends.map (·.start)) = [[1]] ∧
      ((lifetimeClient 3).doMulti [getCmd, multiCmd, incrCmd, execCmd] 3).Recovers
        [getCmd, multiCmd, incrCmd, execCmd] := by
  refine ⟨by rfl, ((lifetime_recovery_iff _ 3).1 (lifetimeClient 3)).mpr ?_⟩
  intro a _ r _ e hb
  have hmulti : hit isMulti [getCmd, multiCmd, incrCmd, execCmd] 0 = false := by decide
  rw [hb.multi] at hmulti
  cases hmulti

/-- A transaction at the head of the batch is sent again from its inside: the commands left over run
outside of a transaction, and the EXEC has no MULTI. -/
theorem expired_head_transaction_is_split :
    ((lifetimeClient 1).doMulti [multiCmd, incrCmd, execCmd] 3).attempts.map
        (·.resends.map (·.start)) = [[1]] ∧
      ¬ ((lifetimeClient 1).doMulti [multiCmd, incrCmd, execCmd] 3).Recovers
        [multiCmd, incrCmd, execCmd] := by
  refine ⟨by rfl, fun h => ?_⟩
  have hb : Block [multiCmd, incrCmd, execCmd] 0 2 := by
    refine ⟨by decide, by decide, by decide, fun k hk hk2 => ?_⟩
    obtain rfl : k = 1 := by omega
    decide
  have houtside := (h.whole _ (mem_cons_self ..) _ (mem_cons_self ..)).outside 0 2 hb
  exact houtside ⟨by decide, by decide⟩

end Rueidis
