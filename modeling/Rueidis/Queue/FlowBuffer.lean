import Rueidis.Queue.RingMatching

/-!
# The flow buffer

The other queue of a pipe: a fixed number of tokens, each with the channel of a call, goes round
through three Go channels.  A put takes a token from `f` and sends it to `w`, the writer moves it to
`r`, and the reader returns it to `f`.  A step of the system is one operation on a Go channel.
-/

namespace Rueidis

open List Option History Machine

variable {answered : List (Nat × RingPut)}

structure QueuedCmd where
  ch : Nat
  one : Completed := {}
  multi : Option (List Completed) := none
  resps : Option Nat := none
deriving DecidableEq, Repr

/-- The Go channels have the capacity `size`; the oldest element is at the front. -/
structure FlowBuffer where
  size : Nat
  f : List QueuedCmd
  r : List QueuedCmd := []
  w : List QueuedCmd := []
  c : Option Nat := none
deriving DecidableEq, Repr

def flowBufferOfSize (size : Nat) : FlowBuffer :=
  { size := size, f := (List.range size).map fun ch => { ch := ch } }

def QueuedCmd.put (cmd : QueuedCmd) : RingPut → QueuedCmd
  | .one m => { cmd with one := m }
  | .multi m resps => { cmd with multi := some m, resps := some resps }

def QueuedCmd.writeCmd (cmd : QueuedCmd) : WriteCmd := ⟨cmd.one, cmd.multi, cmd.ch⟩

def QueuedCmd.resultCh (cmd : QueuedCmd) : ResultCh := ⟨cmd.one, cmd.multi, cmd.ch, cmd.resps⟩

/-! ## The system -/

inductive FlowEvent where
  | called (p : RingPut)
  | cancelled (p : RingPut)
  | entered (ch : Nat) (p : RingPut)
  | handed (cmd : WriteCmd)
  | result (res : ResultCh)
deriving DecidableEq, Repr

/-- The puts that wait for a token, the puts that have one and are about to send it to `w`, and the
token that the writer is about to send to `r`. -/
structure FlowSystem where
  buffer : FlowBuffer
  waiting : List RingPut := []
  putting : List (QueuedCmd × RingPut) := []
  writing : Option QueuedCmd := none
  log : List FlowEvent := []
deriving DecidableEq, Repr

variable {t : FlowSystem}

inductive FlowAction where
  | call (p : RingPut)
  /-- `case <-ctx.Done()` of the waiting put number `j`. -/
  | cancel (j : Nat)
  /-- `case cmd := <-b.f` of the waiting put number `j`. -/
  | take (j : Nat)
  /-- `b.w <- cmd` of the put number `j` that has a token. -/
  | enter (j : Nat)
  | nextWriteCmd
  | waitForWrite
  /-- `b.r <- cmd` of the writer. -/
  | hand
  | nextResultCh
  | finishResult
deriving DecidableEq, Repr

def FlowSystem.receive (s : FlowSystem) (cmd : QueuedCmd) (w : List QueuedCmd) : FlowSystem :=
  { s with buffer := { s.buffer with w := w }, writing := some cmd }

/-- `none` while the operation has to wait.  The reader calls `FinishResult` before it calls
`NextResultCh` again. -/
def flowStep (s : FlowSystem) : FlowAction → Option FlowSystem
  | .call p => some { s with waiting := s.waiting ++ [p], log := s.log ++ [.called p] }
  | .cancel j => do
      let p ← s.waiting[j]?
      some { s with waiting := s.waiting.eraseIdx j, log := s.log ++ [.cancelled p] }
  | .take j => do
      let p ← s.waiting[j]?
      match s.buffer.f with
      | [] => none
      | cmd :: f =>
        some { s with
          buffer := { s.buffer with f := f }
          waiting := s.waiting.eraseIdx j
          putting := s.putting ++ [(cmd.put p, p)] }
  | .enter j => do
      let (cmd, p) ← s.putting[j]?
      if s.buffer.w.length < s.buffer.size then
        some { s with
          buffer := { s.buffer with w := s.buffer.w ++ [cmd] }
          putting := s.putting.eraseIdx j
          log := s.log ++ [.entered cmd.ch p] }
      else none
  | .nextWriteCmd =>
    match s.writing, s.buffer.w with
    | some _, _ => none
    | none, [] => some s
    | none, cmd :: w => some (s.receive cmd w)
  | .waitForWrite =>
    match s.writing, s.buffer.w with
    | none, cmd :: w => some (s.receive cmd w)
    | _, _ => none
  | .hand => do
      let cmd ← s.writing
      if s.buffer.r.length < s.buffer.size then
        some { s with
          buffer := { s.buffer with r := s.buffer.r ++ [cmd] }
          writing := none
          log := s.log ++ [.handed cmd.writeCmd] }
      else none
  | .nextResultCh =>
    match s.buffer.c, s.buffer.r with
    | some _, _ => none
    | none, [] => some s
    | none, cmd :: r =>
      some { s with
        buffer := { s.buffer with r := r, c := some cmd.ch }
        log := s.log ++ [.result cmd.resultCh] }
  | .finishResult =>
    match s.buffer.c with
    | none => some s
    | some ch =>
      if s.buffer.f.length < s.buffer.size then
        some { s with buffer := { s.buffer with f := s.buffer.f ++ [{ ch := ch }], c := none } }
      else none

def newFlowSystem (size : Nat) : FlowSystem := { buffer := flowBufferOfSize size }

namespace FlowEvent

def called? : FlowEvent → Option RingPut
  | .called p => some p
  | _ => none

def cancelled? : FlowEvent → Option RingPut
  | .cancelled p => some p
  | _ => none

def entered? : FlowEvent → Option (Nat × RingPut)
  | .entered ch p => some (ch, p)
  | _ => none

def handed? : FlowEvent → Option WriteCmd
  | .handed cmd => some cmd
  | _ => none

def result? : FlowEvent → Option ResultCh
  | .result res => some res
  | _ => none

end FlowEvent

def FlowSystem.channels (s : FlowSystem) : List Nat :=
  s.buffer.f.map (·.ch) ++ s.putting.map (·.1.ch) ++ s.buffer.w.map (·.ch) ++
    s.writing.toList.map (·.ch) ++ s.buffer.r.map (·.ch) ++ s.buffer.c.toList

/-! ## The invariant -/

def queuedCmdOf (u : Nat × RingPut) : QueuedCmd := QueuedCmd.put { ch := u.1 } u.2

theorem writeCmd_queuedCmdOf (u : Nat × RingPut) : (queuedCmdOf u).writeCmd = writeCmdOf u := by
  obtain ⟨ch, p⟩ := u
  cases p <;> rfl

theorem resultCh_queuedCmdOf (u : Nat × RingPut) : (queuedCmdOf u).resultCh = resultChOf u := by
  obtain ⟨ch, p⟩ := u
  cases p <;> rfl

/-- `answered` are the puts whose results were fetched; after them come the written ones, the one
with the writer and the ones that entered `w`. -/
structure FlowInv (s : FlowSystem) (answered : List (Nat × RingPut)) : Prop where
  channels : s.channels.Perm (List.range s.buffer.size)
  clean : ∀ cmd ∈ s.buffer.f, cmd = { ch := cmd.ch }
  putting : ∀ u ∈ s.putting, u.1 = queuedCmdOf (u.1.ch, u.2)
  entered : ∃ r x w : List (Nat × RingPut),
    s.log.filterMap FlowEvent.entered? = answered ++ r ++ x ++ w ∧
    s.buffer.r = r.map queuedCmdOf ∧ s.writing.toList = x.map queuedCmdOf ∧
    s.buffer.w = w.map queuedCmdOf ∧
    s.log.filterMap FlowEvent.handed? = (answered ++ r).map writeCmdOf
  results : s.log.filterMap FlowEvent.result? = answered.map resultChOf
  called : (s.log.filterMap FlowEvent.called?).Perm
    (s.waiting ++ s.log.filterMap FlowEvent.cancelled? ++ s.putting.map (·.2) ++
      (s.log.filterMap FlowEvent.entered?).map (·.2))

theorem flowInv_new (size : Nat) : FlowInv (newFlowSystem size) [] where
  channels := by
    have hmap : (flowBufferOfSize size).f.map QueuedCmd.ch = range size := by
      rw [flowBufferOfSize, List.map_map]
      exact map_id _
    show ((flowBufferOfSize size).f.map QueuedCmd.ch ++ [] ++ [] ++ [] ++ [] ++ []).Perm _
    rw [hmap]
    simp only [append_nil]
    exact Perm.refl _
  clean := by
    intro cmd hcmd
    obtain ⟨ch, _, rfl⟩ := mem_map.mp hcmd
    rfl
  putting := nofun
  entered := ⟨[], [], [], rfl, rfl, rfl, rfl, rfl⟩
  results := rfl
  called := Perm.refl _

variable {j : Nat} {s : FlowSystem}

theorem perm_of_getElem? {α : Type} {l : List α} {a : α} (h : l[j]? = some a) :
    l.Perm (a :: l.eraseIdx j) := by
  obtain ⟨hlt, rfl⟩ := List.getElem?_eq_some_iff.mp h
  exact (List.getElem_cons_eraseIdx_perm hlt).symm

namespace FlowInv

variable {s : FlowSystem} {answered : List (Nat × RingPut)}

variable (h : FlowInv s answered)

include h

theorem channels_of (hsize : t.buffer.size = s.buffer.size)
    (hcount : ∀ a, t.channels.count a = s.channels.count a) :
    t.channels.Perm (range t.buffer.size) := by
  rw [hsize]
  exact (perm_iff_count.mpr hcount).trans h.channels

theorem waited {waiting : List RingPut} {e : FlowEvent} (hentered : e.entered? = none)
    (hhanded : e.handed? = none) (hresult : e.result? = none)
    (hcount : ∀ p, e.called?.toList.count p + s.waiting.count p =
      waiting.count p + e.cancelled?.toList.count p) :
    FlowInv { s with waiting := waiting, log := s.log ++ [e] } answered := by
  obtain ⟨r, x, w, hold, hr, hx, hw, hold'⟩ := h.entered
  refine { h with
    entered := ⟨r, x, w, (filterMap_snoc_none hentered _).trans hold, hr, hx, hw,
      (filterMap_snoc_none hhanded _).trans hold'⟩
    results := (filterMap_snoc_none hresult _).trans h.results
    called := ?_ }
  have hcalled := perm_iff_count.mp h.called
  rw [filterMap_snoc, filterMap_snoc, filterMap_snoc_none hentered,
    perm_iff_count]
  intro p
  have := hcalled p
  have := hcount p
  simp only [count_append] at *
  omega

theorem call (p : RingPut) :
    FlowInv { s with waiting := s.waiting ++ [p], log := s.log ++ [.called p] } answered := by
  apply h.waited rfl rfl rfl
  intro q
  rw [count_append, Nat.add_comm]
  rfl

omit h

variable {p : RingPut} {cmd : QueuedCmd}

variable (h : FlowInv s answered)

include h

theorem cancel (hj : s.waiting[j]? = some p) :
    FlowInv { s with waiting := s.waiting.eraseIdx j, log := s.log ++ [.cancelled p] } answered := by
  apply h.waited rfl rfl rfl
  intro q
  rw [perm_iff_count.mp (perm_of_getElem? hj) q, ← singleton_append, count_append,
    Nat.add_comm (count q [p])]
  exact Nat.zero_add _

theorem take (hj : s.waiting[j]? = some p) {f : List QueuedCmd} (hf : s.buffer.f = cmd :: f) :
    FlowInv { s with
      buffer := { s.buffer with f := f }
      waiting := s.waiting.eraseIdx j
      putting := s.putting ++ [(cmd.put p, p)] } answered := by
  have hch : (cmd.put p).ch = cmd.ch := by cases p <;> rfl
  have hclean := h.clean cmd (by rw [hf]; exact mem_cons_self)
  refine ⟨h.channels_of rfl fun a => ?_, ?_, ?_, h.entered, h.results, ?_⟩
  · simp [FlowSystem.channels, hf, hch, count_cons]
    omega
  · intro c hc
    exact h.clean c (by rw [hf]; exact mem_cons_of_mem _ hc)
  · refine forall_mem_append.mpr ⟨h.putting, forall_mem_singleton.mpr ?_⟩
    rw [hch, queuedCmdOf, ← hclean]
  · have hcalled := h.called
    have hperm := perm_of_getElem? hj
    rw [perm_iff_count] at hcalled hperm ⊢
    intro a
    have hc := hcalled a
    have hp := hperm a
    simp only [map_append, map_cons, map_nil, count_append, count_cons,
      count_nil] at hc hp ⊢
    omega

theorem enter (hj : s.putting[j]? = some (cmd, p)) : FlowInv { s with
      buffer := { s.buffer with w := s.buffer.w ++ [cmd] }
      putting := s.putting.eraseIdx j
      log := s.log ++ [.entered cmd.ch p] } answered := by
  obtain ⟨r, x, w, hentered, hr, hx, hw, hhanded⟩ := h.entered
  have hperm := perm_of_getElem? hj
  have hcmd := h.putting (cmd, p) (mem_of_getElem? hj)
  refine ⟨h.channels_of rfl fun a => ?_, fun c hc => h.clean c hc,
    fun u hu => h.putting u (mem_of_mem_eraseIdx hu),
    ⟨r, x, w ++ [(cmd.ch, p)], ?_, hr, hx, ?_, (filterMap_snoc_none rfl _).trans hhanded⟩,
    (filterMap_snoc_none rfl _).trans h.results, ?_⟩
  · simp [FlowSystem.channels, (hperm.map fun u => u.1.ch).count_eq a, count_cons]
    omega
  · rw [filterMap_snoc, hentered]
    simp [FlowEvent.entered?]
  · rw [hw, map_append, map_cons, map_nil, ← hcmd]
  · have hcalled := h.called
    have hputs := hperm.map fun u => u.2
    simp only [filterMap_snoc, FlowEvent.called?, FlowEvent.cancelled?, FlowEvent.entered?,
      toList, append_nil]
    rw [perm_iff_count] at hcalled hputs ⊢
    intro a
    have hc := hcalled a
    have hp := hputs a
    simp only [map_append, map_cons, map_nil, count_append, count_cons,
      count_nil] at hc hp ⊢
    omega

theorem receive (hwriting : s.writing = none) {w' : List QueuedCmd} (hw' : s.buffer.w = cmd :: w') :
    FlowInv (s.receive cmd w') answered := by
  obtain ⟨r, x, w, hentered, hr, hx, hw, hhanded⟩ := h.entered
  rw [hw'] at hw
  cases w with
  | nil => cases hw
  | cons u w =>
    rw [map_cons] at hw
    obtain ⟨hcmd, hrest⟩ := cons.inj hw
    have hnil : x = [] := by
      rw [hwriting] at hx
      exact map_eq_nil_iff.mp hx.symm
    subst hnil
    refine { h with
      channels := h.channels_of rfl fun a => ?_, entered := ⟨r, [u], w, ?_, hr, ?_, hrest, hhanded⟩ }
    · simp [FlowSystem.channels, FlowSystem.receive, hw', hwriting, count_cons]
      omega
    · rw [FlowSystem.receive, hentered]
      simp
    · rw [hcmd]
      rfl

theorem hand (hcmd : s.writing = some cmd) : FlowInv { s with
      buffer := { s.buffer with r := s.buffer.r ++ [cmd] }
      writing := none
      log := s.log ++ [.handed cmd.writeCmd] } answered := by
  obtain ⟨r, x, w, hentered, hr, hx, hw, hhanded⟩ := h.entered
  rw [hcmd] at hx
  obtain ⟨u, rfl, hu⟩ := map_eq_singleton_iff.mp hx.symm
  refine ⟨h.channels_of rfl fun a => ?_, h.clean, h.putting,
    ⟨r ++ [u], [], w, ?_, ?_, rfl, hw, ?_⟩, ?_, ?_⟩
  · simp [FlowSystem.channels, hcmd, count_cons]
    omega
  · rw [filterMap_snoc, hentered]
    simp [FlowEvent.entered?]
  · rw [hr, map_append, map_cons, map_nil, hu]
  · rw [filterMap_snoc, hhanded, ← hu]
    simp [FlowEvent.handed?, writeCmd_queuedCmdOf]
  · exact (filterMap_snoc_none rfl _).trans h.results
  · rw [filterMap_snoc_none rfl, filterMap_snoc_none rfl,
      filterMap_snoc_none rfl]
    exact h.called

theorem result (hc : s.buffer.c = none) {r' : List QueuedCmd} (hr' : s.buffer.r = cmd :: r') :
    ∃ u, FlowInv { s with
      buffer := { s.buffer with r := r', c := some cmd.ch }
      log := s.log ++ [.result cmd.resultCh] } (answered ++ [u]) := by
  obtain ⟨r, x, w, hentered, hr, hx, hw, hhanded⟩ := h.entered
  rw [hr'] at hr
  cases r with
  | nil => cases hr
  | cons u r =>
    rw [map_cons] at hr
    obtain ⟨hcmd, hrest⟩ := cons.inj hr
    refine ⟨u, h.channels_of rfl fun a => ?_, h.clean, h.putting,
      ⟨r, x, w, ?_, hrest, hx, hw, ?_⟩, ?_, ?_⟩
    · simp [FlowSystem.channels, hr', hc, count_cons]
    · rw [filterMap_snoc, hentered]
      simp [FlowEvent.entered?]
    · rw [filterMap_snoc, hhanded]
      simp [FlowEvent.handed?]
    · rw [filterMap_snoc, h.results, hcmd]
      simp [FlowEvent.result?, resultCh_queuedCmdOf]
    · rw [filterMap_snoc_none rfl, filterMap_snoc_none rfl,
        filterMap_snoc_none rfl]
      exact h.called

theorem finish {ch : Nat} (hc : s.buffer.c = some ch) :
    FlowInv { s with buffer := { s.buffer with f := s.buffer.f ++ [{ ch := ch }], c := none } }
      answered := by
  refine { h with
    channels := h.channels_of rfl fun a => ?_
    clean := forall_mem_append.mpr ⟨h.clean, forall_mem_singleton.mpr rfl⟩ }
  simp [FlowSystem.channels, hc, count_cons]
  omega

end FlowInv

/-! ## Whole runs -/

theorem flowInv_step {a : FlowAction} (h : FlowInv s answered) (hstep : flowStep s a = some t) :
    (∃ answered', FlowInv t answered') ∧ t.buffer.size = s.buffer.size := by
  cases a with
  | call p =>
    cases hstep
    exact ⟨⟨answered, h.call p⟩, rfl⟩
  | cancel j =>
    obtain ⟨p, hj, hstep⟩ := bind_eq_some_iff.mp hstep
    cases hstep
    exact ⟨⟨answered, h.cancel hj⟩, rfl⟩
  | take j =>
    obtain ⟨p, hj, hstep⟩ := bind_eq_some_iff.mp hstep
    split at hstep
    · cases hstep
    next cmd f hf =>
      cases hstep
      exact ⟨⟨answered, h.take hj hf⟩, rfl⟩
  | enter j =>
    obtain ⟨⟨cmd, p⟩, hj, hstep⟩ := bind_eq_some_iff.mp hstep
    dsimp only at hstep
    split at hstep <;> cases hstep
    exact ⟨⟨answered, h.enter hj⟩, rfl⟩
  | nextWriteCmd =>
    rw [flowStep] at hstep
    split at hstep
    · cases hstep
    · cases hstep
      exact ⟨⟨answered, h⟩, rfl⟩
    next cmd w hwriting hw =>
      cases hstep
      exact ⟨⟨answered, h.receive hwriting hw⟩, rfl⟩
  | waitForWrite =>
    rw [flowStep] at hstep
    split at hstep
    next cmd w hwriting hw =>
      cases hstep
      exact ⟨⟨answered, h.receive hwriting hw⟩, rfl⟩
    · cases hstep
  | hand =>
    obtain ⟨cmd, hcmd, hstep⟩ := bind_eq_some_iff.mp hstep
    split at hstep <;> cases hstep
    exact ⟨⟨answered, h.hand hcmd⟩, rfl⟩
  | nextResultCh =>
    rw [flowStep] at hstep
    split at hstep
    · cases hstep
    · cases hstep
      exact ⟨⟨answered, h⟩, rfl⟩
    next cmd r hc hr =>
      cases hstep
      obtain ⟨u, hu⟩ := h.result hc hr
      exact ⟨⟨_, hu⟩, rfl⟩
  | finishResult =>
    rw [flowStep] at hstep
    split at hstep
    · cases hstep
      exact ⟨⟨answered, h⟩, rfl⟩
    next ch hc =>
      split at hstep <;> cases hstep
      exact ⟨⟨answered, h.finish hc⟩, rfl⟩

theorem flowInv_run {size : Nat} {acts : List FlowAction}
    (h : run flowStep (newFlowSystem size) acts = some s) :
    (∃ answered, FlowInv s answered) ∧ s.buffer.size = size := by
  have hstep : ∀ s a t, (∃ answered, FlowInv s answered) ∧ s.buffer.size = size →
      flowStep s a = some t → (∃ answered, FlowInv t answered) ∧ t.buffer.size = size := by
    rintro s a t ⟨⟨answered, hs⟩, hsize⟩ hstep
    obtain ⟨hinv, hkept⟩ := flowInv_step hs hstep
    exact ⟨hinv, hkept.trans hsize⟩
  exact run_invariant flowStep hstep ⟨⟨[], flowInv_new size⟩, rfl⟩ h

theorem FlowInv.length_channels (h : FlowInv s answered) :
    s.buffer.f.length + s.putting.length + s.buffer.w.length + s.writing.toList.length +
      s.buffer.r.length + s.buffer.c.toList.length = s.buffer.size := by
  have hlen := h.channels.length_eq
  simp only [FlowSystem.channels, length_append, length_map, length_range] at hlen
  exact hlen

/-- After any interleaving the tokens are all there, each once, so that no send has to wait; no put
is lost; and the writer and the reader get the puts in the order of entry, field for field. -/
theorem flow_matching (size : Nat) (acts : List FlowAction) (s : FlowSystem)
    (h : run flowStep (newFlowSystem size) acts = some s) :
    (s.channels.Perm (List.range size) ∧
      s.buffer.f.length + s.putting.length + s.buffer.w.length + s.writing.toList.length +
        s.buffer.r.length + s.buffer.c.toList.length = size) ∧
    ((∀ j < s.putting.length, (flowStep s (.enter j)).isSome = true) ∧
      (s.writing ≠ none → (flowStep s .hand).isSome = true) ∧
      (flowStep s .finishResult).isSome = true) ∧
    (s.log.filterMap FlowEvent.called?).Perm
      (s.waiting ++ s.log.filterMap FlowEvent.cancelled? ++ s.putting.map (·.2) ++
        (s.log.filterMap FlowEvent.entered?).map (·.2)) ∧
    ∃ order, order <+: s.log.filterMap FlowEvent.entered? ∧
      s.log.filterMap FlowEvent.handed? = order.map writeCmdOf ∧
      s.log.filterMap FlowEvent.result? =
        (order.take (s.log.filterMap FlowEvent.result?).length).map resultChOf := by
  obtain ⟨⟨answered, hinv⟩, hsize⟩ := flowInv_run h
  have hlen := hinv.length_channels
  have hchannels := hinv.channels
  rw [hsize] at hchannels
  refine ⟨⟨hchannels, hlen.trans hsize⟩, ⟨?_, ?_, ?_⟩, hinv.called, ?_⟩
  · intro j hj
    have hget : s.putting[j]? = some s.putting[j] := getElem?_eq_getElem hj
    have hroom : s.buffer.w.length < s.buffer.size := by omega
    rw [flowStep, hget]
    simp only [bind_eq_bind, bind_some, if_pos hroom, isSome_some]
  · intro hwriting
    obtain ⟨cmd, hcmd⟩ := ne_none_iff_exists'.mp hwriting
    rw [hcmd, toList, length_singleton] at hlen
    have hroom : s.buffer.r.length < s.buffer.size := by omega
    rw [flowStep, hcmd]
    simp only [bind_eq_bind, bind_some, if_pos hroom, isSome_some]
  · rw [flowStep]
    cases hc : s.buffer.c with
    | none => rfl
    | some ch =>
      rw [hc, toList, length_singleton] at hlen
      have hroom : s.buffer.f.length < s.buffer.size := by omega
      dsimp only
      rw [if_pos hroom]
      rfl
  · obtain ⟨r, x, w, hentered, _, _, _, hhanded⟩ := hinv.entered
    refine ⟨answered ++ r, ⟨x ++ w, ?_⟩, hhanded, ?_⟩
    · rw [hentered, append_assoc (answered ++ r)]
    · rw [hinv.results, length_map, take_left]

theorem flow_matching_two_tokens :
    let acts := [.call (.one multiCmd), .call (.multi [execCmd] 7), .call (.one execCmd),
      .call (.one multiCmd), .take 0, .take 0, .enter 1, .cancel 1, .nextWriteCmd, .hand, .enter 0,
      .nextResultCh, .finishResult, .take 0, .waitForWrite, .hand, .enter 0, .nextResultCh]
    ∃ s, run flowStep (newFlowSystem 2) acts = some s ∧
      s.log.filterMap FlowEvent.result? = [⟨{}, some [execCmd], 1, some 7⟩, ⟨multiCmd, none, 0, none⟩] ∧
      s.channels.Perm (List.range 2) := by
  intro acts
  obtain ⟨s, hrun, hresults⟩ := exists_run flowStep (newFlowSystem 2) acts
    (P := fun s => s.log.filterMap FlowEvent.result? =
      [⟨{}, some [execCmd], 1, some 7⟩, ⟨multiCmd, none, 0, none⟩]) (by decide +kernel)
  exact ⟨s, hrun, hresults, (flow_matching 2 acts s hrun).1.1⟩

end Rueidis
