import Rueidis.Client.Recovery
import Rueidis.Cluster.Held
import Rueidis.Library.Strides
import Rueidis.Pipe.DoCache

/-!
# Batches that are asked for

A batch that was redirected with ASK is sent with an ASKING before every command, and before every
MULTI for the whole of its block; a cached batch has frames of three or six commands.
-/

namespace Rueidis

open List Option Strides

open Boundaries (hit)

namespace ClusterClient

/-! ## Cached batches -/

/-- What is sent for a cacheable command with the key `ck`.  Inside of MULTI and EXEC the tag is
cleared, so that the reply QUEUED is not committed. -/
def askingCacheFrame (optIn skipMultiExec : Bool) (ck : Bytes) (cmd : Completed) : List Completed :=
  if skipMultiExec then [pipeOptInCmd optIn, askingCmd, cmd]
  else [pipeOptInCmd optIn, askingCmd, multiCmd, pttlCmd ck, cmd.clearStaticTTL, execCmd]

def askingStride (skipMultiExec : Bool) : Nat := if skipMultiExec then 3 else 6

def askingCacheFrames (optIn skipMultiExec : Bool) : List CacheableTTL → Except Panic (List Completed)
  | [] => .ok []
  | ct :: multi =>
    match if skipMultiExec then .ok ([], []) else cacheKey ct.cmd,
      askingCacheFrames optIn skipMultiExec multi with
    | .error p, _ => .error p
    | .ok _, .error p => .error p
    | .ok (ck, _), .ok commands =>
      .ok (askingCacheFrame optIn skipMultiExec ck ct.cmd ++ commands)

def askingCacheFrom (stride : Nat) (resps : List RedisResult) : Option Nat :=
  ((List.range (resps.length / stride)).find? fun j =>
    (resps.getD (stride * j + (stride - 1)) {}).isExpired).map (stride * ·)

/-- The result in the reply to an EXEC: the last element, or the error of the queued command if it
has one. -/
def askingExecResult (queued exec : RedisResult) : Except Panic RedisResult :=
  match exec.toArray with
  | .error err => .ok (newErrorResult (some (queued.error.getD err)))
  | .ok arr =>
    match arr.getLast? with
    | some m => .ok (newResult m none)
    | none => .error indexOutOfRange

def askingCacheResult (skipMultiExec : Bool) (resps : List RedisResult) (j : Nat) :
    Except Panic RedisResult :=
  if skipMultiExec then .ok (resps.getD (3 * j + 2) {})
  else askingExecResult (resps.getD (6 * j + 4) {}) (resps.getD (6 * j + 5) {})

/-- `askingMultiCache` of a connection with the opt-in mode `optIn`: the attempt, its results, and
whether it is done.  A command without a key is a panic before anything is sent. -/
def askingMultiCache (c : ClusterClient) (optIn : Bool) (k cc : Nat) (multi : List CacheableTTL)
    (fuel : Nat) : Except Panic (Attempt × Except Panic (List RedisResult) × Bool) :=
  let skipMultiExec := multi.all (·.cmd.isStaticTTL)
  let stride := askingStride skipMultiExec
  match askingCacheFrames optIn skipMultiExec multi with
  | .error p => .error p
  | .ok commands =>
    match sendRecovering c.hasLftm (askingCacheFrom stride) ((c.conns true cc).doMulti k) commands
      fuel with
    | (a, done) =>
      .ok (a, (List.range (a.resps.length / stride)).mapM
        (askingCacheResult skipMultiExec a.resps), done)

end ClusterClient

open ClusterClient

/-! ## Recovery, whatever the scan looks at -/

def Attempt.calls (a : Attempt) : List (Nat × List RedisResult) :=
  (0, a.answer) :: a.resends.map Resend.call

/-- The answers of an attempt are the ones of the connection to what was sent, from `n` on. -/
def AnsweredFrom (call : Nat → List Completed → List RedisResult) (sent : List Completed) (n : Nat)
    (resends : List Resend) : Prop :=
  ∀ i r, resends[i]? = some r → r.answer = call (n + i) (sent.drop r.start)

def Unexpired (watched : Nat → Prop) (resps : List RedisResult) : Prop :=
  ∀ p r, watched p → resps[p]? = some r → r.isExpired = false

/-- The scan finds an expired result at the positions that it looks at, and goes back from the first
one. -/
structure Watches (scan : List RedisResult → Option Nat) (watched : Nat → Prop) : Prop where
  none_iff : ∀ resps, scan resps = none ↔ Unexpired watched resps
  start : ∀ resps start, scan resps = some start →
    start ≤ resps.length ∧ Unexpired watched (resps.take start)

variable {scan : List RedisResult → Option Nat} {start : Nat}
  {call : Nat → List Completed → List RedisResult}

theorem Watches.le {watched : Nat → Prop} (hw : Watches scan watched) (resps : List RedisResult)
    (start : Nat) (h : scan resps = some start) : start ≤ resps.length :=
  (hw.start resps start h).1

section Recover

variable {scan : List RedisResult → Option Nat} {call : Nat → List Completed → List RedisResult}
  {sent : List Completed} {watched : Nat → Prop} {fuel n : Nat} {resps : List RedisResult}

theorem recover_spec (hscan : ∀ resps start, scan resps = some start → start ≤ resps.length)
    (hcall : ∀ n ml, (call n ml).length = ml.length) (hlen : resps.length = sent.length) :
    AnsweredFrom call sent n (recover scan call sent fuel n resps).resends ∧
    (∀ r ∈ (recover scan call sent fuel n resps).resends, r.before.length = sent.length) ∧
    ((recover scan call sent fuel n resps).done = true →
      scan (recover scan call sent fuel n resps).resps = none) := by
  induction fuel generalizing n resps with
  | zero => simp [recover, AnsweredFrom]
  | succ fuel ih =>
    rw [recover]
    split
    next hnone => exact ⟨by simp [AnsweredFrom], by simp, fun _ => hnone⟩
    next start hstart =>
      have hle := hscan resps start hstart
      have hshort : (call n (sent.drop start)).length ≤ resps.length := by
        rw [hcall, length_drop]
        omega
      obtain ⟨hanswered, hbefore, hdone⟩ :=
        ih ((SuffixCalls.length_overlay hshort).trans hlen) (n := n + 1)
      refine ⟨fun i r hr => ?_, forall_mem_cons.mpr ⟨hlen, hbefore⟩, hdone⟩
      cases i with
      | zero =>
        cases hr
        rfl
      | succ i =>
        rw [show n + (i + 1) = n + 1 + i by omega]
        exact hanswered i r hr

theorem Watches.overlay (hw : Watches scan watched) (hstart : scan resps = some start)
    {ys : List RedisResult} (hys : ∀ r ∈ ys, r.isExpired = false)
    (hlen : ys.length + start = resps.length) : scan (SuffixCalls.overlay resps ys) = none := by
  rw [hw.none_iff]
  intro p r hp hr
  unfold SuffixCalls.overlay at hr
  rw [show resps.length - ys.length = start by omega] at hr
  have htake : (resps.take start).length = start := by
    rw [length_take]
    omega
  by_cases hlt : p < start
  · rw [getElem?_append_left (by omega)] at hr
    exact (hw.start resps start hstart).2 p r hp hr
  · rw [getElem?_append_right (by omega)] at hr
    exact hys r (mem_of_getElem? hr)

theorem recover_done (hw : Watches scan watched) (hcall : ∀ n ml, (call n ml).length = ml.length)
    {m : Nat} (hclean : ∀ ml, ∀ r ∈ call m ml, r.isExpired = false)
    (hlen : resps.length = sent.length) (hfuel : m + 2 ≤ n + fuel)
    (hreach : scan resps = none ∨ n ≤ m) (hpos : 0 < fuel) :
    (recover scan call sent fuel n resps).done = true := by
  induction fuel generalizing n resps with
  | zero => omega
  | succ fuel ih =>
    rw [recover]
    split
    · rfl
    next start hstart =>
      have hle := hw.le resps start hstart
      have hys : (call n (sent.drop start)).length + start = resps.length := by
        rw [hcall, length_drop]
        omega
      have hnm : n ≤ m := hreach.resolve_left (by simp [hstart])
      refine ih ((SuffixCalls.length_overlay (by omega)).trans hlen) (by omega) ?_ (by omega)
      by_cases hnow : n = m
      · subst hnow
        exact .inl (hw.overlay hstart (hclean _) hys)
      · exact .inr (by omega)

end Recover

/-- An attempt that sends `sent` and recovers: every result is the one of the last call that its
command was part of, the answers are the ones of the connection, and the attempt is done when an
answer without expired results is reached. -/
structure Attempt.Recovered (call : Nat → List Completed → List RedisResult) (watched : Nat → Prop)
    (hasLftm : Bool) (sent : List Completed) (fuel : Nat) (a : Attempt) (done : Bool) : Prop where
  aligned : a.Aligned sent
  first : a.answer = call 0 sent
  again : AnsweredFrom call sent 1 a.resends
  unexpired : hasLftm = true → done = true → Unexpired watched a.resps
  ends : ∀ m < fuel, (∀ ml, ∀ r ∈ call m ml, r.isExpired = false) → done = true

theorem sendRecovering_recovered {watched : Nat → Prop} (hw : Watches scan watched)
    (hcall : ∀ n ml, (call n ml).length = ml.length) (sent : List Completed) (hasLftm : Bool)
    (fuel : Nat) :
    (sendRecovering hasLftm scan call sent fuel).1.Recovered call watched hasLftm sent fuel
      (sendRecovering hasLftm scan call sent fuel).2 := by
  have haligned : (sendRecovering hasLftm scan call sent fuel).1.Aligned sent :=
    sendRecovering_aligned hw.le hcall
  cases hasLftm with
  | false =>
    exact ⟨haligned, rfl, nofun, nofun, fun _ _ _ => rfl⟩
  | true =>
    obtain ⟨hanswered, -, hscan⟩ := recover_spec (n := 1) hw.le hcall (hcall 0 sent)
    refine ⟨haligned, rfl, hanswered, fun _ hdone => ?_, fun m hm hclean => ?_⟩
    · exact (hw.none_iff _).mp (hscan hdone)
    · refine recover_done hw hcall hclean (hcall 0 sent) (by omega) ?_ (by omega)
      -- the first answer is the one to look at when it is the clean one
      by_cases hzero : m = 0
      · subst hzero
        refine .inl ((hw.none_iff _).mpr fun p r _ hr => ?_)
        exact hclean sent r (mem_of_getElem? hr)
      · exact .inr (by omega)

theorem sendRecovering_before
    (hscan : ∀ resps start, scan resps = some start → start ≤ resps.length)
    (hcall : ∀ n ml, (call n ml).length = ml.length) (sent : List Completed) (hasLftm : Bool)
    (fuel : Nat) : ∀ r ∈ (sendRecovering hasLftm scan call sent fuel).1.resends,
      scan r.before = some r.start ∧ r.before.length = sent.length := by
  intro r hr
  refine ⟨mem_resends_sendRecovering hr, ?_⟩
  cases hasLftm with
  | false => cases hr
  | true => exact (recover_spec hscan hcall (hcall 0 sent)).2.1 r hr

/-! ## Frames of a batch -/

/-- The command at `j` is behind a MULTI that has no EXEC before `j`. -/
def InBlock (multi : List Completed) (j : Nat) : Prop :=
  ∃ m < j, hit isMulti multi m = true ∧ ∀ i < j, m < i → hit isExec multi i = false

instance (multi : List Completed) (j : Nat) : Decidable (InBlock multi j) :=
  inferInstanceAs (Decidable (∃ m < j, _))

section Frames

variable {multi : List Completed}
  {j i askingIdx : Nat} {frame : List (Option Nat)} {resps : List RedisResult}

theorem inBlock_of_block {m e : Nat} (h : Block multi m e) (hm : m < j) (he : j ≤ e) :
    InBlock multi j := by
  refine ⟨m, hm, h.multi, fun i hi hmi => ?_⟩
  by_contra hexec
  cases (h.inner i hmi (by omega)).symm.trans (hit_boundary_of_exec (by simpa using hexec))

theorem inBlock_iff_block (hwhole : ∀ m, hit isMulti multi m = true → ∃ e, Block multi m e) :
    InBlock multi j ↔ ∃ m e, Block multi m e ∧ m < j ∧ j ≤ e := by
  constructor
  · rintro ⟨m, hm, hmulti, hopen⟩
    obtain ⟨e, hblock⟩ := hwhole m hmulti
    refine ⟨m, e, hblock, hm, ?_⟩
    by_contra hlt
    cases (hopen e (by omega) hblock.lt).symm.trans hblock.exec
  · rintro ⟨m, e, hblock, hm, he⟩
    exact inBlock_of_block hblock hm he

theorem inBlock_succ : InBlock multi (j + 1) ↔
    if InBlock multi j then hit isExec multi j = false else hit isMulti multi j = true := by
  have hstep : InBlock multi (j + 1) ↔
      hit isMulti multi j = true ∨ InBlock multi j ∧ hit isExec multi j = false := by
    constructor
    · rintro ⟨m, hm, hmulti, hopen⟩
      rcases Nat.lt_succ_iff_lt_or_eq.mp hm with hlt | rfl
      · exact .inr ⟨⟨m, hlt, hmulti, fun i hi => hopen i (by omega)⟩, hopen j (by omega) hlt⟩
      · exact .inl hmulti
    · rintro (hmulti | ⟨⟨m, hm, hmulti, hopen⟩, hexec⟩)
      · exact ⟨j, by omega, hmulti, fun i hi hmi => by omega⟩
      · refine ⟨m, by omega, hmulti, fun i hi hmi => ?_⟩
        rcases Nat.lt_succ_iff_lt_or_eq.mp hi with hlt | rfl
        · exact hopen i hlt hmi
        · exact hexec
  rw [hstep]
  by_cases hin : InBlock multi j
  · simpa [hin] using fun hmulti => Bool.eq_false_iff.mpr (not_hit_both hmulti)
  · simp [hin]

def askingMarks (multi : List Completed) (j : Nat) : List (Option Nat) :=
  if InBlock multi j then [some j] else [none, some j]

/-- The loop keeps in `inTx` whether the next command is inside of a block. -/
theorem askingFrame_eq {rest : List Completed} {inTx : Bool} (hrest : multi.drop j = rest)
    (hinTx : inTx = true ↔ InBlock multi j) :
    askingFrame inTx j rest = (range' j rest.length).flatMap (askingMarks multi) := by
  induction rest generalizing j inTx with
  | nil => cases inTx <;> rfl
  | cons cmd rest ih =>
    have hcmd : multi[j]? = some cmd := by rw [← head?_drop, hrest, head?_cons]
    have hrest' : multi.drop (j + 1) = rest := by rw [← tail_drop, hrest, tail_cons]
    have hhit : ∀ b : Completed → Bool, hit b multi j = b cmd := by simp [hit, hcmd]
    have hnext : InBlock multi (j + 1) ↔ _ := inBlock_succ
    rw [hhit, hhit] at hnext
    rw [length_cons, range'_succ, flatMap_cons]
    unfold askingMarks
    cases inTx with
    | true =>
      have hin := hinTx.mp rfl
      rw [if_pos hin] at hnext ⊢
      have hflag : (!isExec cmd) = true ↔ InBlock multi (j + 1) := by
        rw [hnext, Bool.not_eq_true']
      rw [askingFrame, ih hrest' hflag]
      rfl
    | false =>
      have hout : ¬ InBlock multi j := fun hin => Bool.false_ne_true (hinTx.mpr hin)
      rw [if_neg hout] at hnext ⊢
      rw [askingFrame, ih hrest' hnext.symm]
      rfl

def askingSent (multi : List Completed) : List Completed :=
  (List.range multi.length).flatMap fun j =>
    if InBlock multi j then [multi.getD j {}] else [askingCmd, multi.getD j {}]

theorem framed_askingFrame (multi : List Completed) :
    framed multi (askingFrame false 0 multi) = askingSent multi := by
  have hstart : (false = true) ↔ InBlock multi 0 :=
    ⟨nofun, fun ⟨_, hm, _⟩ => absurd hm (Nat.not_lt_zero _)⟩
  rw [askingFrame_eq drop_zero hstart, ← range_eq_range']
  unfold framed askingSent
  rw [map_flatMap]
  congr 1
  funext j
  unfold askingMarks
  split <;> rfl

theorem length_unframed (h : resps.length = frame.length) :
    (unframed frame resps).length = (frame.filterMap id).length := by
  induction frame generalizing resps with
  | nil => rfl
  | cons mark frame ih =>
    cases resps with
    | nil => cases h
    | cons resp resps =>
      have hrest : (unframed frame resps).length = _ := ih (by simpa using h)
      cases mark with
      | none => exact hrest
      | some j =>
        show (unframed frame resps).length + 1 = (frame.filterMap id).length + 1
        rw [hrest]

theorem getElem?_unframed (h : resps.length = frame.length)
    (hij : (frame.filterMap id)[i]? = some j) :
    ∃ p : Nat, frame[p]? = some (some j) ∧ (unframed frame resps)[i]? = resps[p]? := by
  induction frame generalizing resps i with
  | nil => cases hij
  | cons mark frame ih =>
    cases resps with
    | nil => cases h
    | cons resp resps =>
      have hrest : resps.length = frame.length := by simpa using h
      cases mark with
      | none =>
        obtain ⟨p, hp, hres⟩ := ih hrest hij
        exact ⟨p + 1, hp, hres⟩
      | some j' =>
        cases i with
        | zero =>
          cases hij
          exact ⟨0, rfl, rfl⟩
        | succ i =>
          obtain ⟨p, hp, hres⟩ := ih hrest (i := i) hij
          exact ⟨p + 1, hp, hres⟩

/-! ## The scan -/

theorem askingFrom_eq_none :
    askingFrom frame i askingIdx resps = none ↔ ∀ r ∈ resps, r.isExpired = false := by
  induction resps generalizing i askingIdx with
  | nil => simp [askingFrom]
  | cons resp rest ih =>
    rw [askingFrom, forall_mem_cons]
    cases hexp : resp.isExpired with
    | true => simp
    | false => simpa using ih

theorem askingFrom_le (hidx : askingIdx ≤ i) (h : askingFrom frame i askingIdx resps = some start) :
    start ≤ i + resps.findIdx (·.isExpired) ∧
      resps.findIdx (·.isExpired) < resps.length := by
  induction resps generalizing i askingIdx with
  | nil => cases h
  | cons resp rest ih =>
    rw [askingFrom] at h
    have hidx' : (if frame.getD i none = none then i else askingIdx) ≤ i := by
      split <;> omega
    rw [findIdx_cons, length_cons]
    cases hexp : resp.isExpired with
    | true =>
      rw [hexp, if_pos rfl] at h
      cases h
      exact ⟨by simpa using hidx', by simp⟩
    | false =>
      rw [hexp, if_neg (by simp)] at h
      have hrest := ih (Nat.le_succ_of_le hidx') h
      show start ≤ i + (rest.findIdx (·.isExpired) + 1) ∧
        rest.findIdx (·.isExpired) + 1 < rest.length + 1
      omega

theorem askingFrom_mark (hlen : i + resps.length ≤ frame.length)
    (hmark : 0 < i → frame[askingIdx]? = some none) (hhead : frame.headD none = none)
    (h : askingFrom frame i askingIdx resps = some start) : frame[start]? = some none := by
  induction resps generalizing i askingIdx with
  | nil => cases h
  | cons resp rest ih =>
    rw [length_cons] at hlen
    rw [askingFrom] at h
    have hget : frame[i]? = some (frame.getD i none) := by
      rw [getD_eq_getElem?_getD, getElem?_eq_getElem (by omega)]
      rfl
    generalize hidx' : (if frame.getD i none = none then i else askingIdx) = idx at h
    have hmark' : frame[idx]? = some none := by
      by_cases hnone : frame.getD i none = none
      · rw [if_pos hnone] at hidx'
        rw [← hidx', hget, hnone]
      · -- the first mark is an ASKING, so there is one before `i`
        have hpos : 0 < i := by
          refine Nat.pos_of_ne_zero ?_
          rintro rfl
          rw [getD_eq_getElem?_getD, ← head?_eq_getElem?, ← headD_eq_head?_getD]
            at hnone
          exact hnone hhead
        rw [if_neg hnone] at hidx'
        rw [← hidx', hmark hpos]
    cases hexp : resp.isExpired with
    | true =>
      rw [hexp, if_pos rfl] at h
      cases h
      exact hmark'
    | false =>
      rw [hexp, if_neg (by simp)] at h
      exact ih (by omega) (fun _ => hmark') h

theorem watches_askingFrom (frame : List (Option Nat)) :
    Watches (askingFrom frame 0 0) (fun _ => True) where
  none_iff resps := by
    rw [askingFrom_eq_none]
    constructor
    · exact fun h p r _ hr => h r (mem_of_getElem? hr)
    · intro h r hr
      obtain ⟨p, hp⟩ := mem_iff_getElem?.mp hr
      exact h p r trivial hp
  start resps start h := by
    obtain ⟨hle, hlt⟩ := askingFrom_le (Nat.le_refl 0) h
    refine ⟨by omega, fun p r _ hr => ?_⟩
    rw [List.getElem?_take, Option.ite_none_right_eq_some] at hr
    have hp : p < resps.findIdx (·.isExpired) := by omega
    obtain ⟨-, rfl⟩ := List.getElem?_eq_some_iff.mp hr.2
    simpa using not_of_lt_findIdx hp

end Frames

/-! ## Batches of commands -/

/-- What is done with a batch of commands: `sent` has the ASKINGs, and `marks` says which command is
where in it.  Every result is the one of the last call that its command was part of. -/
structure AskedFor (call : Nat → List Completed → List RedisResult) (hasLftm : Bool)
    (multi : List Completed) (fuel : Nat) (a : Attempt) (results : List RedisResult) (done : Bool) :
    Prop where
  recovered : a.Recovered call (fun _ => True) hasLftm (askingSent multi) fuel done
  resent : ∀ r ∈ a.resends, (askingFrame false 0 multi)[r.start]? = some none
  one : results.length = multi.length
  own : ∀ j < multi.length, ∃ p : Nat, (askingFrame false 0 multi)[p]? = some (some j) ∧
    (askingSent multi)[p]? = multi[j]? ∧ results[j]? = SuffixCalls.latest a.calls p

theorem askingMulti_asks (c : ClusterClient) (k cc : Nat) (multi : List Completed) (fuel : Nat) :
    AskedFor ((c.conns true cc).doMulti k) c.hasLftm multi fuel (c.askingMulti k cc multi fuel).1
      (c.askingMulti k cc multi fuel).2.1 (c.askingMulti k cc multi fuel).2.2 := by
  have hcall := (c.conns true cc).length_doMulti k
  have hw := watches_askingFrom (askingFrame false 0 multi)
  have hrec := sendRecovering_recovered hw hcall (askingSent multi) c.hasLftm fuel
  have hbefore := sendRecovering_before hw.le hcall (askingSent multi) c.hasLftm fuel
  have hsent := framed_askingFrame multi
  have hlen : (askingSent multi).length = (askingFrame false 0 multi).length :=
    hsent ▸ length_map _
  have hmarks : (askingFrame false 0 multi).filterMap id = range multi.length :=
    (Goroutine.filterMap_askingFrame false 0 multi).trans range_eq_range'.symm
  unfold askingMulti
  dsimp only
  rw [hsent]
  generalize sendRecovering c.hasLftm (askingFrom (askingFrame false 0 multi) 0 0)
    ((c.conns true cc).doMulti k) (askingSent multi) fuel = r at hrec hbefore
  obtain ⟨a, done⟩ := r
  have hresps : a.resps.length = (askingFrame false 0 multi).length := hrec.aligned.1.trans hlen
  refine ⟨hrec, fun r hr => ?_, ?_, fun j hj => ?_⟩
  · obtain ⟨hscan, hbl⟩ := hbefore r hr
    exact askingFrom_mark (by omega) (fun h => absurd h (Nat.lt_irrefl 0))
      (by cases multi <;> rfl) hscan
  · rw [length_unframed hresps, hmarks, length_range]
  · obtain ⟨p, hp, hres⟩ := getElem?_unframed hresps (i := j) (j := j)
      (by rw [hmarks, getElem?_range hj])
    refine ⟨p, hp, ?_, hres.trans (hrec.aligned.2 p)⟩
    rw [← hsent, framed, getElem?_map, hp, getElem?_eq_getElem hj]
    simp [hj]

/-! ## Batches of cacheable commands -/

section Cached

variable {optIn skipMultiExec : Bool} {multi : List CacheableTTL}

theorem askingStride_pos (skipMultiExec : Bool) : 0 < askingStride skipMultiExec := by
  cases skipMultiExec <;> decide

theorem length_askingCacheFrame (optIn skipMultiExec : Bool) (ck : Bytes) (cmd : Completed) :
    (askingCacheFrame optIn skipMultiExec ck cmd).length = askingStride skipMultiExec := by
  cases skipMultiExec <;> rfl

def CacheableTTL.key (ct : CacheableTTL) : Bytes :=
  match cacheKey ct.cmd with
  | .ok (ck, _) => ck
  | .error _ => []

theorem askingCacheFrames_eq (hkeys : ∀ ct ∈ multi, ∃ k, cacheKey ct.cmd = .ok k) :
    askingCacheFrames optIn skipMultiExec multi =
      .ok (multi.flatMap fun ct => askingCacheFrame optIn skipMultiExec ct.key ct.cmd) := by
  induction multi with
  | nil => rfl
  | cons ct multi ih =>
    rw [forall_mem_cons] at hkeys
    obtain ⟨k, hk⟩ := hkeys.1
    rw [askingCacheFrames, ih hkeys.2, hk, flatMap_cons]
    unfold CacheableTTL.key
    rw [hk]
    cases skipMultiExec <;> rfl

theorem watches_askingCacheFrom {stride : Nat} (hpos : 0 < stride) :
    Watches (askingCacheFrom stride) (fun p => p % stride = stride - 1) := by
  have hget : ∀ {resps : List RedisResult} {p : Nat} {r : RedisResult}, resps[p]? = some r →
      resps.getD p {} = r ∧ p < resps.length := by
    intro resps p r hr
    rw [getD_eq_getElem?_getD, hr]
    exact ⟨rfl, (List.getElem?_eq_some_iff.mp hr).1⟩
  refine ⟨fun resps => ?_, fun resps start h => ?_⟩
  · unfold askingCacheFrom
    rw [map_eq_none_iff, find?_eq_none]
    constructor
    · intro h p r hp hr
      obtain ⟨j, hj, rfl⟩ := (last_iff hpos).mp ⟨(hget hr).2, hp⟩
      have hj' := h j (mem_range.mpr hj)
      rw [(hget hr).1] at hj'
      simpa using hj'
    · intro h j hj
      obtain ⟨hlt, hmod⟩ := (last_iff (p := stride * j + (stride - 1)) hpos).mpr
        ⟨j, mem_range.mp hj, rfl⟩
      have hr := getElem?_eq_getElem hlt
      rw [(hget hr).1, h _ _ hmod hr]
      decide
  · obtain ⟨j, hfind, rfl⟩ := map_eq_some_iff.mp h
    rw [find?_range_eq_some] at hfind
    obtain ⟨-, hj, hbefore⟩ := hfind
    obtain ⟨hlt, -⟩ := (last_iff hpos).mpr ⟨j, mem_range.mp hj, rfl⟩
    refine ⟨by omega, fun p r hp hr => ?_⟩
    rw [getElem?_take, ite_none_right_eq_some] at hr
    obtain ⟨i, -, rfl⟩ := (last_iff hpos).mp ⟨(hget hr.2).2, hp⟩
    have hi := hbefore i (Nat.lt_of_mul_lt_mul_left (a := stride) (by omega))
    rw [(hget hr.2).1] at hi
    simpa using hi

def EmptyExec (a : Attempt) (j : Nat) : Prop :=
  ∃ exec, SuffixCalls.latest a.calls (6 * j + 5) = some exec ∧ exec.toArray = .ok []

/-- `v` is the result in the last reply to the `j`-th command, or to its EXEC. -/
def OwnReply (skipMultiExec : Bool) (a : Attempt) (j : Nat) (v : RedisResult) : Prop :=
  if skipMultiExec then SuffixCalls.latest a.calls (3 * j + 2) = some v
  else ∃ queued exec, SuffixCalls.latest a.calls (6 * j + 4) = some queued ∧
    SuffixCalls.latest a.calls (6 * j + 5) = some exec ∧ askingExecResult queued exec = .ok v

/-- What is done with a batch of cacheable commands, which is framed as `sent`. -/
structure AskedForCache (call : Nat → List Completed → List RedisResult) (hasLftm optIn : Bool)
    (multi : List CacheableTTL) (fuel : Nat) (a : Attempt)
    (results : Except Panic (List RedisResult)) (done : Bool) (skipMultiExec : Bool)
    (sent : List Completed) : Prop where
  static_iff : skipMultiExec = true ↔ ∀ ct ∈ multi, ct.cmd.isStaticTTL = true
  length : sent.length = askingStride skipMultiExec * multi.length
  framed : ∀ j ct ck cc, multi[j]? = some ct → cacheKey ct.cmd = .ok (ck, cc) →
    (sent.drop (askingStride skipMultiExec * j)).take (askingStride skipMultiExec) =
      askingCacheFrame optIn skipMultiExec ck ct.cmd
  recovered : a.Recovered call
    (fun p => p % askingStride skipMultiExec = askingStride skipMultiExec - 1) hasLftm sent fuel done
  resent : ∀ r ∈ a.resends, ∃ j < multi.length, r.start = askingStride skipMultiExec * j
  own : ∀ rs, results = .ok rs → rs.length = multi.length ∧
    ∀ j v, rs[j]? = some v → OwnReply skipMultiExec a j v
  returns : (∀ j < multi.length, skipMultiExec = true ∨ ¬ EmptyExec a j) → ∃ rs, results = .ok rs
  panics : skipMultiExec = false → (∃ j < multi.length, EmptyExec a j) →
    results = .error indexOutOfRange

theorem askingExecResult_eq_error {queued exec : RedisResult} {p : Panic} :
    askingExecResult queued exec = .error p ↔ exec.toArray = .ok [] ∧ p = indexOutOfRange := by
  unfold askingExecResult
  cases exec.toArray with
  | error err => simp
  | ok arr =>
    cases hlast : arr.getLast? with
    | none => simp [getLast?_eq_none_iff.mp hlast, eq_comm]
    | some m => simp [ne_nil_of_mem (mem_of_getLast? hlast), hlast]

section Results

variable {a : Attempt} {sent : List Completed} (h : a.Aligned sent) {j : Nat}
include h

theorem Attempt.Aligned.latest {p : Nat} (hp : p < sent.length) :
    SuffixCalls.latest a.calls p = some (a.resps.getD p {}) := by
  refine (h.2 p).symm.trans ?_
  rw [getD_eq_getElem?_getD, getElem?_eq_getElem (by rw [h.1]; exact hp)]
  rfl

theorem askingCacheResult_ok
    (hlen : askingStride skipMultiExec * j + (askingStride skipMultiExec - 1) < sent.length)
    {v : RedisResult} :
    askingCacheResult skipMultiExec a.resps j = .ok v ↔ OwnReply skipMultiExec a j v := by
  unfold askingCacheResult OwnReply
  cases skipMultiExec with
  | true =>
    rw [if_pos rfl, if_pos rfl, h.latest (p := 3 * j + 2) hlen, Except.ok.injEq, some.injEq]
  | false =>
    rw [if_neg (by simp), if_neg (by simp), h.latest (p := 6 * j + 5) hlen,
      h.latest (p := 6 * j + 4) (Nat.lt_of_succ_lt hlen)]
    simp

theorem askingCacheResult_error (hlen : 6 * j + 5 < sent.length) {p : Panic} :
    askingCacheResult false a.resps j = .error p ↔ EmptyExec a j ∧ p = indexOutOfRange := by
  unfold askingCacheResult EmptyExec
  rw [if_neg (by simp), askingExecResult_eq_error, h.latest hlen]
  simp

end Results

theorem askedForCache_of_recovered {hasLftm : Bool} {fuel : Nat} {a : Attempt} {done : Bool}
    {sent : List Completed} (hskip : skipMultiExec = true ↔ ∀ ct ∈ multi, ct.cmd.isStaticTTL = true)
    (hsent : sent = multi.flatMap fun ct => askingCacheFrame optIn skipMultiExec ct.key ct.cmd)
    (hrec : a.Recovered call
      (fun p => p % askingStride skipMultiExec = askingStride skipMultiExec - 1) hasLftm sent fuel done)
    (hresends : ∀ r ∈ a.resends,
      askingCacheFrom (askingStride skipMultiExec) r.before = some r.start ∧
        r.before.length = sent.length) :
    AskedForCache call hasLftm optIn multi fuel a
      ((range (a.resps.length / askingStride skipMultiExec)).mapM
        (askingCacheResult skipMultiExec a.resps)) done skipMultiExec sent := by
  have hpos := askingStride_pos skipMultiExec
  have hframes : ∀ ct ∈ multi, (askingCacheFrame optIn skipMultiExec ct.key ct.cmd).length =
      askingStride skipMultiExec := fun ct _ => length_askingCacheFrame ..
  have hlen : sent.length = askingStride skipMultiExec * multi.length := by
    rw [hsent, length_flatMap hframes]
  have hcount : a.resps.length / askingStride skipMultiExec = multi.length := by
    rw [hrec.aligned.1, hlen, Nat.mul_div_cancel_left _ hpos]
  have hin : ∀ j < multi.length,
      askingStride skipMultiExec * j + (askingStride skipMultiExec - 1) < sent.length := by
    intro j hj
    exact ((last_iff hpos).mpr
      ⟨j, by rw [hlen, Nat.mul_div_cancel_left _ hpos]; exact hj, rfl⟩).1
  rw [hcount]
  refine ⟨hskip, hlen, ?_, hrec, ?_, ?_, ?_, ?_⟩
  · intro j ct ck cc hct hkey
    rw [hsent, frame_eq hframes hct]
    unfold CacheableTTL.key
    rw [hkey]
  · intro r hr
    obtain ⟨hscan, hbefore⟩ := hresends r hr
    obtain ⟨j, hfind, hstart⟩ := map_eq_some_iff.mp hscan
    have hj := mem_range.mp (mem_of_find?_eq_some hfind)
    rw [hbefore, hlen, Nat.mul_div_cancel_left _ hpos] at hj
    exact ⟨j, hj, hstart.symm⟩
  · intro rs hrs
    rw [mapM_eq_ok] at hrs
    have hrslen := hrs.length_eq
    rw [List.length_range] at hrslen
    refine ⟨hrslen.symm, fun j v hv => ?_⟩
    obtain ⟨hj, -⟩ := List.getElem?_eq_some_iff.mp hv
    have hj' : j < multi.length := by omega
    have hown := (forall₂_iff_get.mp hrs).2 j (by rw [length_range]; exact hj') hj
    rw [getElem?_eq_getElem hj] at hv
    cases hv
    rw [get_eq_getElem, getElem_range] at hown
    exact (askingCacheResult_ok hrec.aligned (hin j hj')).mp hown
  · intro hexec
    cases hres : (range multi.length).mapM (askingCacheResult skipMultiExec a.resps) with
    | ok rs => exact ⟨rs, rfl⟩
    | error p =>
      obtain ⟨j, hj, hfail⟩ := exists_of_mapM_eq_error hres
      have hj := mem_range.mp hj
      cases skipMultiExec with
      | true => cases hfail
      | false =>
        have hempty := ((askingCacheResult_error hrec.aligned (hin j hj)).mp hfail).1
        exact absurd hempty ((hexec j hj).resolve_left (by simp))
  · rintro rfl ⟨j, hj, hempty⟩
    refine mapM_eq_error ?_ ⟨j, mem_range.mpr hj, ?_⟩
    · intro i hi p hp
      exact ((askingCacheResult_error hrec.aligned (hin i (mem_range.mp hi))).mp hp).2
    · exact (askingCacheResult_error hrec.aligned (hin j hj)).mpr ⟨hempty, rfl⟩

theorem askingMultiCache_asks (c : ClusterClient) (optIn : Bool) (k cc : Nat)
    (hkeys : ∀ ct ∈ multi, ∃ key, cacheKey ct.cmd = .ok key) (fuel : Nat) :
    ∃ a results done skipMultiExec sent,
      c.askingMultiCache optIn k cc multi fuel = .ok (a, results, done) ∧
      AskedForCache ((c.conns true cc).doMulti k) c.hasLftm optIn multi fuel a results done
        skipMultiExec sent := by
  have hw := watches_askingCacheFrom (askingStride_pos (multi.all (·.cmd.isStaticTTL)))
  have hcall := (c.conns true cc).length_doMulti k
  unfold askingMultiCache
  dsimp only
  rw [askingCacheFrames_eq hkeys]
  exact ⟨_, _, _, multi.all (·.cmd.isStaticTTL), _, rfl,
    askedForCache_of_recovered all_eq_true rfl
      (sendRecovering_recovered hw hcall _ c.hasLftm fuel)
      (sendRecovering_before hw.le hcall _ c.hasLftm fuel)⟩

end Cached

/-! ## Both functions -/

/-- For every client, connection and batch: `askingMulti` sends an ASKING before every command that
is not behind a MULTI of its block, and `askingMultiCache` sends the frames; both return one result
for each command, from the last reply to it, after any number of recoveries, which start again at an
ASKING, or at the frame of it. -/
theorem asking_framed (c : ClusterClient) (k cc fuel : Nat) :
    (∀ multi : List Completed,
      AskedFor ((c.conns true cc).doMulti k) c.hasLftm multi fuel (c.askingMulti k cc multi fuel).1
        (c.askingMulti k cc multi fuel).2.1 (c.askingMulti k cc multi fuel).2.2 ∧
      ((∀ m, hit isMulti multi m = true → ∃ e, Block multi m e) →
        ∀ j, InBlock multi j ↔ ∃ m e, Block multi m e ∧ m < j ∧ j ≤ e)) ∧
    ∀ (optIn : Bool) (multi : List CacheableTTL),
      (∀ ct ∈ multi, ∃ key, cacheKey ct.cmd = .ok key) →
      ∃ a results done skipMultiExec sent,
        c.askingMultiCache optIn k cc multi fuel = .ok (a, results, done) ∧
        AskedForCache ((c.conns true cc).doMulti k) c.hasLftm optIn multi fuel a results done
          skipMultiExec sent :=
  ⟨fun multi => ⟨askingMulti_asks c k cc multi fuel, fun hwhole _ => inBlock_iff_block hwhole⟩,
    fun optIn _ hkeys => askingMultiCache_asks c optIn k cc hkeys fuel⟩

theorem asking_framed_block :
    (∀ j, InBlock [multiCmd, getCmd, execCmd] j ↔
      ∃ m e, Block [multiCmd, getCmd, execCmd] m e ∧ m < j ∧ j ≤ e) ∧
    ∃ a results done skipMultiExec sent,
      ClusterClient.relocated.askingMultiCache true 0 0 [⟨getCmd, 0⟩] 1 = .ok (a, results, done) ∧
      AskedForCache ((ClusterClient.relocated.conns true 0).doMulti 0) false true [⟨getCmd, 0⟩] 1 a
        results done skipMultiExec sent := by
  constructor
  · refine ((asking_framed ClusterClient.relocated 0 0 1).1 _).2 fun m hm => ?_
    obtain rfl : m = 0 := by
      have hlt := Boundaries.lt_length_of_hit hm
      have hfirst : ∀ m < 3, hit isMulti [multiCmd, getCmd, execCmd] m = true → m = 0 := by decide
      exact hfirst m hlt hm
    exact ⟨2, block_multi_get_exec⟩
  · exact (asking_framed ClusterClient.relocated 0 0 1).2 true [⟨getCmd, 0⟩]
      (forall_mem_singleton.mpr ⟨_, rfl⟩)

end Rueidis
