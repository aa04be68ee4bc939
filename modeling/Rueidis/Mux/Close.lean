import Rueidis.Library.History
import Rueidis.Library.Threads
import Rueidis.Mux.Connect

/-!
# Whether Close is final

A connection that is being made while `Close` runs is stored over the dead wire: nobody closes it any
more, and the mux goes on with it.  A command that got the dead wire swaps it back if it fails with
another error than `ErrClosing`.
-/

namespace Rueidis

open List Option Threads Machine

/-! ## Phases -/

namespace PipePc

def isLeader : PipePc → Bool
  | leading => true
  | connecting => true
  | connected _ => true
  | hooked _ => true
  | finishing _ _ => true
  | _ => false

def isConnecting : PipePc → Bool
  | connecting => true
  | connected _ => true
  | hooked _ => true
  | _ => false

def held : PipePc → Option Nat
  | connected id => some id
  | hooked id => some id
  | _ => none

theorem held_of_isReturned {pc : PipePc} (h : pc.isReturned = true) : pc.held = none := by
  cases pc <;> first | rfl | cases h

theorem isLeader_of_isConnecting {pc : PipePc} (h : pc.isConnecting = true) :
    pc.isLeader = true := by
  cases pc <;> first | rfl | cases h

end PipePc

def PipeCall.leads (i : Nat) (p : PipeCall) : Bool := p.slot == i && p.pc.isLeader

def ClosePc.passed (i : Nat) : ClosePc → Bool
  | swapping j => decide (i < j)
  | closing j _ => decide (i ≤ j)

def ClosePc.held : ClosePc → Option Nat
  | swapping _ => none
  | closing _ id => some id

def MadeWire.gone (w : MadeWire) : Bool := w.closed || w.failed

def Mux.Known (m : Mux) (id : Nat) : Prop :=
  (∃ mw ∈ m.muxwires, mw.wire = .live id) ∨ (∃ p ∈ m.pipes, p.pc.held = some id) ∨
    ∃ c ∈ m.closes, c.held = some id

/-- The condition on a run: no muxwire is swapped while a connection for it is on its way, and no
command swaps the dead wire back. -/
def swapsSafely (m : Mux) : MuxAct → Bool
  | .closeStep t =>
    match m.closes[t]? with
    | some (.swapping i) => m.pipes.all fun p => p.slot != i || !p.pc.isConnecting
    | _ => true
  | .broken i .dead => m.muxwires[i]?.map (·.wire) != some .dead
  | _ => true

structure MuxInv (m : Mux) : Prop where
  leaders : ∀ i mw, m.muxwires[i]? = some mw →
    m.pipes.countP (PipeCall.leads i) = if mw.sc.isSome then 1 else 0
  connecting : ∀ p ∈ m.pipes, p.pc.isConnecting = true →
    ∀ mw, m.muxwires[p.slot]? = some mw → mw.wire = .init
  passed : ∀ c ∈ m.closes, ∀ i, c.passed i = true →
    ∀ mw, m.muxwires[i]? = some mw → mw.wire = .dead
  known : ∀ id w, m.wires[id]? = some w → w.gone = true ∨ m.Known id
  slots : ∀ p ∈ m.pipes, p.slot < m.muxwires.length

theorem muxInv_new (n : Nat) : MuxInv (Mux.new n) := by
  constructor
  · intro i mw hmw
    have hnew : mw = {} := eq_of_mem_replicate (mem_of_getElem? hmw)
    rw [hnew]
    rfl
  · nofun
  · nofun
  · intro id w hw
    cases hw
  · nofun

/-! ## Steps of `_pipe` -/

section Pipe

variable {m m' : Mux} {t : Nat} {p p' : PipeCall} {mw mw' : Muxwire}

theorem eq_of_leaders (hinv : MuxInv m) (ht : m.pipes[t]? = some p) (hp : p.pc.isLeader = true)
    {u : Nat} {q : PipeCall} (hu : m.pipes[u]? = some q) (hq : q.pc.isLeader = true)
    (hslot : q.slot = p.slot) : u = t := by
  by_contra hne
  obtain ⟨mw, hmw⟩ : ∃ mw, m.muxwires[p.slot]? = some mw :=
    ⟨_, getElem?_eq_getElem (hinv.slots p (mem_of_getElem? ht))⟩
  have hone : m.pipes.countP (PipeCall.leads p.slot) ≤ 1 := by
    rw [hinv.leaders p.slot mw hmw]
    split <;> omega
  have hleadp : PipeCall.leads p.slot p = true := by simp [PipeCall.leads, hp]
  have hleadq : PipeCall.leads p.slot q = true := by simp [PipeCall.leads, hq, hslot]
  -- without the call at `t` there would still be the one at `u`
  have hcount := countP_replaced (PipeCall.leads p.slot) ht { slot := p.slot }
  rw [hleadp] at hcount
  have hstart : PipeCall.leads p.slot { slot := p.slot } = false := by
    simp [PipeCall.leads, PipePc.isLeader]
  rw [hstart] at hcount
  have hmem : q ∈ m.pipes.set t { slot := p.slot } := by
    apply mem_of_getElem? (i := u)
    rw [getElem?_set, if_neg (fun h => hne h.symm), hu]
  have hpos : 0 < (m.pipes.set t { slot := p.slot }).countP (PipeCall.leads p.slot) :=
    countP_pos_iff.mpr ⟨q, hmem, hleadq⟩
  simp only [if_true, Bool.false_eq_true, if_false] at hcount
  omega

/-- What a step of `_pipe` does to the call and to its muxwire: it keeps the number of calls that
connect in step with `sc`, it stores a wire only where it has found the initial one, and a wire does
not get lost. -/
structure PipeChange (m m' : Mux) (t : Nat) (p p' : PipeCall) (mw mw' : Muxwire) : Prop where
  pipes : m'.pipes = m.pipes.set t p'
  slot : p'.slot = p.slot
  muxwires : m'.muxwires = m.muxwires.set p.slot mw'
  closes : m'.closes = m.closes
  lead : (if p'.pc.isLeader then 1 else 0) + (if mw.sc.isSome then 1 else 0) =
    (if p.pc.isLeader then 1 else 0) + if mw'.sc.isSome then 1 else 0
  connects : p'.pc.isConnecting = true → mw'.wire = .init
  wire : mw'.wire = mw.wire ∨ p.pc.isConnecting = true
  wires : ∀ id w', m'.wires[id]? = some w' →
    p'.pc.held = some id ∨ ∃ w, m.wires[id]? = some w ∧ (w.gone = true → w'.gone = true)
  held : ∀ id, p.pc.held = some id → p'.pc.held = some id ∨ mw'.wire = .live id

theorem PipeChange.inv (h : PipeChange m m' t p p' mw mw') (hinv : MuxInv m)
    (ht : m.pipes[t]? = some p) (hmw : m.muxwires[p.slot]? = some mw) : MuxInv m' := by
  have hp : p ∈ m.pipes := mem_of_getElem? ht
  have hlt : p.slot < m.muxwires.length := hinv.slots p hp
  -- where the wire changes it was the initial one
  have hwire : ∀ w, w ≠ .init → mw.wire = w → mw'.wire = w := by
    intro w hw hmww
    rcases h.wire with hsame | hconn
    · rw [hsame, hmww]
    · exact absurd (hmww.symm.trans (hinv.connecting p hp hconn mw hmw)) hw
  constructor
  · intro i mwi hi
    rw [h.muxwires] at hi
    rw [h.pipes]
    have hcount := countP_replaced (PipeCall.leads i) ht p'
    rcases of_getElem?_set hi with ⟨rfl, rfl⟩ | ⟨his, hi⟩
    · have hold := hinv.leaders p.slot mw hmw
      have hlead := h.lead
      simp only [PipeCall.leads, h.slot, beq_self_eq_true, Bool.true_and] at hcount hold ⊢
      omega
    · have hne : (p.slot == i) = false := beq_eq_false_iff_ne.mpr fun heq => his heq.symm
      have hold := hinv.leaders i mwi hi
      simp only [PipeCall.leads, h.slot, hne, Bool.false_and, Bool.false_eq_true, if_false,
        Nat.add_zero] at hcount hold ⊢
      omega
  · intro q hq hconn mwq hmwq
    rw [h.muxwires] at hmwq
    rw [h.pipes] at hq
    obtain ⟨u, hu⟩ := mem_iff_getElem?.mp hq
    rcases of_getElem?_set hmwq with ⟨hslot, rfl⟩ | ⟨hslot, hmwq⟩
    · rcases of_getElem?_set hu with ⟨-, rfl⟩ | ⟨hut, hu⟩
      · exact h.connects hconn
      · rcases h.wire with hsame | hpconn
        · rw [hsame]
          exact hinv.connecting q (mem_of_getElem? hu) hconn mw (hslot ▸ hmw)
        · -- two calls on their way to the same muxwire
          exact absurd (eq_of_leaders hinv ht (PipePc.isLeader_of_isConnecting hpconn) hu
            (PipePc.isLeader_of_isConnecting hconn) hslot) hut
    · rcases mem_or_eq_of_mem_set hq with hq | rfl
      · exact hinv.connecting q hq hconn mwq hmwq
      · exact absurd h.slot hslot
  · intro c hc i hpassed mwi hi
    rw [h.closes] at hc
    rw [h.muxwires] at hi
    rcases of_getElem?_set hi with ⟨rfl, rfl⟩ | ⟨-, hi⟩
    · exact hwire .dead (by simp) (hinv.passed c hc p.slot hpassed mw hmw)
    · exact hinv.passed c hc i hpassed mwi hi
  · intro id w' hw'
    unfold Mux.Known
    rw [h.muxwires, h.pipes, h.closes]
    have hset : p' ∈ m.pipes.set t p' := mem_set_self ht p'
    have hmwset : mw' ∈ m.muxwires.set p.slot mw' := mem_set_self hmw mw'
    rcases h.wires id w' hw' with hnew | ⟨w, hw, hgone⟩
    · exact .inr (.inr (.inl ⟨p', hset, hnew⟩))
    rcases hinv.known id w hw with hdone | hlive | hheld | hclose
    · exact .inl (hgone hdone)
    · rcases exists_mem_set (P := fun mw => mw.wire = .live id) hmw hlive mw' with
        hhere | hthere
      · exact .inr (.inl ⟨mw', hmwset, hwire (.live id) (by simp) hhere⟩)
      · exact .inr (.inl hthere)
    · rcases exists_mem_set ht hheld p' with hhere | hthere
      · rcases h.held id hhere with hkept | hstored
        · exact .inr (.inr (.inl ⟨p', hset, hkept⟩))
        · exact .inr (.inl ⟨mw', hmwset, hstored⟩)
      · exact .inr (.inr (.inl hthere))
    · exact .inr (.inr (.inr hclose))
  · rw [h.pipes, h.muxwires, length_set]
    exact forall_mem_set hinv.slots (by rw [h.slot]; exact hlt)

theorem PipeChange.ofSetPc (pc : PipePc) (hmw : m.muxwires[p.slot]? = some mw)
    (hleader : pc.isLeader = p.pc.isLeader) (hconnects : pc.isConnecting = true → mw.wire = .init)
    (hheld : p.pc.held = none) :
    PipeChange m (m.setPc t p pc) t p { p with pc := pc } mw mw where
  pipes := rfl
  slot := rfl
  muxwires := (set_self hmw).symm
  closes := rfl
  lead := by rw [hleader]
  connects := hconnects
  wire := .inl rfl
  wires := fun id w hw => .inr ⟨w, hw, fun h => h⟩
  held := by
    intro id hid
    rw [hheld] at hid
    cases hid

theorem gone_of_modify {ws : List MadeWire} {f : MadeWire → MadeWire} {j id : Nat} {w' : MadeWire}
    (hf : ∀ w, w.gone = true → (f w).gone = true) (h : (ws.modify j f)[id]? = some w') :
    ∃ w, ws[id]? = some w ∧ (w.gone = true → w'.gone = true) := by
  rw [getElem?_modify] at h
  obtain ⟨w, hw, rfl⟩ := map_eq_some_iff.mp h
  refine ⟨w, hw, fun hgone => ?_⟩
  split
  · exact hf w hgone
  · exact hgone

theorem pipeStep_change (hinv : MuxInv m) (ht : m.pipes[t]? = some p)
    (hmw : m.muxwires[p.slot]? = some mw) {err : Option Err}
    (hstep : m.pipeStep t p mw err = some m') : ∃ p' mw', PipeChange m m' t p p' mw mw' := by
  have hconnecting := hinv.connecting p (mem_of_getElem? ht)
  obtain ⟨slot, pc⟩ := p
  cases pc with
  | start =>
    cases hstep
    refine ⟨_, _, .ofSetPc _ hmw ?_ ?_ rfl⟩ <;> split <;> first | rfl | nofun
  | missed =>
    unfold Mux.pipeStep at hstep
    cases hsc : mw.sc with
    | some sc =>
      rw [hsc] at hstep
      cases hstep
      exact ⟨_, _, .ofSetPc (.waiting sc) hmw rfl nofun rfl⟩
    | none =>
      rw [hsc] at hstep
      cases hstep
      refine ⟨_, _, rfl, rfl, rfl, rfl, ?_, nofun, .inl rfl,
        fun j w hw => .inr ⟨w, hw, fun h => h⟩, nofun⟩
      rw [hsc]
      rfl
  | waiting sc =>
    unfold Mux.pipeStep at hstep
    dsimp only at hstep
    split at hstep
    · cases hstep
      exact ⟨_, _, .ofSetPc (.returned _ _) hmw rfl nofun rfl⟩
    · cases hstep
  | leading =>
    cases hstep
    refine ⟨_, _, .ofSetPc _ hmw ?_ ?_ rfl⟩
    · split <;> rfl
    · split
      · exact fun _ => ‹_›
      · nofun
  | connecting =>
    cases err with
    | some e =>
      cases hstep
      exact ⟨_, _, .ofSetPc (.finishing .dead (some e)) hmw rfl nofun rfl⟩
    | none =>
      cases hstep
      refine ⟨_, mw, rfl, rfl, (set_self hmw).symm, rfl, rfl,
        fun _ => hconnecting rfl mw hmw, .inl rfl, ?_, nofun⟩
      -- the wire that was made is the one that the call holds
      intro id w hw
      rcases (History.getElem?_snoc_iff _ _ _ _).mp hw with hw | ⟨rfl, -⟩
      · exact .inr ⟨w, hw, fun h => h⟩
      · exact .inl rfl
  | connected id =>
    cases hstep
    refine ⟨_, mw, rfl, rfl, (set_self hmw).symm, rfl, rfl,
      fun _ => hconnecting rfl mw hmw, .inl rfl, fun j w hw => ?_, fun j hj => .inl hj⟩
    exact .inr (gone_of_modify (f := fun w => { w with hook := some slot }) (fun w h => h) hw)
  | hooked id =>
    cases hstep
    refine ⟨_, _, rfl, rfl, rfl, rfl, rfl, nofun, .inr rfl,
      fun j w hw => .inr ⟨w, hw, fun h => h⟩, fun j hj => ?_⟩
    cases hj
    exact .inr rfl
  | finishing w e =>
    unfold Mux.pipeStep at hstep
    cases hsc : mw.sc with
    | none => simp [hsc] at hstep
    | some sc =>
      rw [hsc] at hstep
      cases hstep
      refine ⟨_, _, rfl, rfl, rfl, rfl, ?_, nofun, .inl rfl,
        fun j w hw => .inr ⟨w, hw, fun h => h⟩, nofun⟩
      rw [hsc]
      rfl
  | publishing sc w e =>
    cases hstep
    exact ⟨_, mw, rfl, rfl, (set_self hmw).symm, rfl, rfl, nofun, .inl rfl,
      fun j w hw => .inr ⟨w, hw, fun h => h⟩, nofun⟩
  | returned w e => cases hstep

end Pipe

/-! ## Other steps -/

section Others

variable {m m' : Mux} {t : Nat}

variable (hinv : MuxInv m)

include hinv

theorem rewire_inv {i : Nat} {mw : Muxwire} (hmw : m.muxwires[i]? = some mw) {w : WireRef}
    {closes : List ClosePc}
    (hconn : ∀ p ∈ m.pipes, p.slot = i → p.pc.isConnecting = true → w = .init)
    (hpassed : ∀ c ∈ closes, ∀ j, c.passed j = true →
      if j = i then w = .dead else ∃ c ∈ m.closes, c.passed j = true)
    (hknown : ∀ id wi, m.wires[id]? = some wi → mw.wire = .live id →
      wi.gone = true ∨ ∃ c ∈ closes, c.held = some id)
    (hheld : ∀ id, (∃ c ∈ m.closes, c.held = some id) → ∃ c ∈ closes, c.held = some id) :
    MuxInv { m.setMuxwire i { mw with wire := w } with closes := closes } := by
  constructor
  · intro j mwj hj
    rcases of_getElem?_set hj with ⟨rfl, rfl⟩ | ⟨-, hj⟩
    · exact hinv.leaders j mw hmw
    · exact hinv.leaders j mwj hj
  · intro q hq hc mwq hmwq
    rcases of_getElem?_set hmwq with ⟨hqi, rfl⟩ | ⟨-, hmwq⟩
    · exact hconn q hq hqi hc
    · exact hinv.connecting q hq hc mwq hmwq
  · intro c hc j hj mwj hmwj
    have hj := hpassed c hc j hj
    rcases of_getElem?_set hmwj with ⟨rfl, rfl⟩ | ⟨hji, hmwj⟩
    · rwa [if_pos rfl] at hj
    · rw [if_neg hji] at hj
      obtain ⟨c, hc, hj⟩ := hj
      exact hinv.passed c hc j hj mwj hmwj
  · intro id wi hwi
    rcases hinv.known id wi hwi with hgone | hlive | hpipe | hclose
    · exact .inl hgone
    · rcases exists_mem_set (P := fun mw => mw.wire = .live id) hmw hlive
        { mw with wire := w } with hhere | hthere
      · exact (hknown id wi hwi hhere).imp_right fun h => .inr (.inr h)
      · exact .inr (.inl hthere)
    · exact .inr (.inr (.inl hpipe))
    · exact .inr (.inr (.inr (hheld id hclose)))
  · intro q hq
    change q.slot < (m.muxwires.set i _).length
    rw [length_set]
    exact hinv.slots q hq

theorem swap_inv {i : Nat} (ht : m.closes[t]? = some (.swapping i))
    (hidle : ∀ p ∈ m.pipes, p.slot = i → p.pc.isConnecting = false)
    (hstep : m.closeStep t (.swapping i) = some m') : MuxInv m' := by
  unfold Mux.closeStep at hstep
  dsimp only at hstep
  cases hmw : m.muxwires[i]? with
  | none => simp [hmw] at hstep
  | some mw =>
    rw [hmw] at hstep
    cases hstep
    refine rewire_inv hinv hmw ?_ (fun c hc j hj => ?_) (fun id wi _ hid => ?_) fun id hclose => ?_
    · intro p hp hslot hconn
      rw [hidle p hp hslot] at hconn
      cases hconn
    · split
      · rfl
      · rename_i hji
        rcases mem_or_eq_of_mem_set hc with hc | rfl
        · exact ⟨c, hc, hj⟩
        · -- the call has passed this muxwire too
          have hle : j ≤ i := by
            unfold ClosePc.afterSwap at hj
            split at hj
            · exact of_decide_eq_true hj
            · exact Nat.lt_succ_iff.mp (of_decide_eq_true hj)
          exact ⟨_, mem_of_getElem? ht, decide_eq_true (Nat.lt_of_le_of_ne hle hji)⟩
    · -- it holds the wire that it found
      refine .inr ⟨_, mem_set_self ht _, ?_⟩
      rw [hid]
      rfl
    · rcases exists_mem_set (P := fun c : ClosePc => c.held = some id) ht hclose
        (.afterSwap i mw.wire) with hhere | hthere
      · cases hhere
      · exact hthere

theorem closeWire_inv {i id : Nat} (ht : m.closes[t]? = some (.closing i id))
    (hstep : m.closeStep t (.closing i id) = some m') : MuxInv m' := by
  rw [← some.inj hstep]
  refine { hinv with passed := ?_, known := ?_ }
  · intro c hc j hj
    rcases mem_or_eq_of_mem_set hc with hc | rfl
    · exact hinv.passed c hc j hj
    · -- both have passed the muxwires up to `i`
      apply hinv.passed _ (mem_of_getElem? ht) j
      exact decide_eq_true (Nat.lt_succ_iff.mp (of_decide_eq_true hj))
  · intro j w' hw'
    obtain ⟨w, hw, hgone⟩ := gone_of_modify (f := fun w => { w with closed := true })
      (fun w _ => rfl) hw'
    by_cases hji : id = j
    · subst hji
      left
      rw [List.getElem?_modify, hw] at hw'
      simp only [if_true, Option.map_eq_map, Option.map_some, Option.some.injEq] at hw'
      rw [← hw']
      rfl
    · rcases hinv.known j w hw with hdone | hlive | hpipe | hclose
      · exact .inl (hgone hdone)
      · exact .inr (.inl hlive)
      · exact .inr (.inr (.inl hpipe))
      · rcases exists_mem_set (P := fun c : ClosePc => c.held = some j) ht hclose
          (.swapping (i + 1)) with hhere | hthere
        · exact absurd (some.inj hhere) hji
        · exact .inr (.inr (.inr hthere))

theorem reset_inv {i id : Nat} {w : MadeWire} (hw : m.wires[id]? = some w)
    (hfailed : w.failed = true) : MuxInv (m.reset i (.live id)) := by
  unfold Mux.reset
  cases hmw : m.muxwires[i]? with
  | none => exact hinv
  | some mw =>
    dsimp only
    split
    · rename_i hlive
      refine rewire_inv hinv hmw (fun _ _ _ _ => rfl) (fun c hc j hj => ?_)
        (fun j wj hwj hhere => ?_) fun _ h => h
      · split
        · -- what was swapped is dead, and not this wire
          rename_i hji
          subst hji
          have hdead := hinv.passed c hc j hj mw hmw
          rw [hlive] at hdead
          cases hdead
        · exact ⟨c, hc, hj⟩
      · -- the wire that is dropped has failed
        left
        rw [hlive] at hhere
        cases hhere
        rw [hw] at hwj
        cases hwj
        rw [MadeWire.gone, hfailed, Bool.or_true]
    · exact hinv

theorem muxStep_inv {a : MuxAct} (hguard : swapsSafely m a = true) (hstep : m.step a = some m') :
    MuxInv m' := by
  cases a with
  | pipe i =>
    unfold Mux.step at hstep
    dsimp only at hstep
    split at hstep
    · rename_i hlt
      rw [← some.inj hstep]
      refine { hinv with leaders := ?_, connecting := ?_, known := ?_, slots := ?_ }
      · intro j mw hmw
        rw [countP_append, hinv.leaders j mw hmw]
        simp [PipeCall.leads, PipePc.isLeader]
      · exact forall_mem_append.mpr ⟨hinv.connecting, forall_mem_singleton.mpr nofun⟩
      · intro id w hw
        refine (hinv.known id w hw).imp_right (.imp_right (.imp_left ?_))
        exact fun ⟨p, hp, hheld⟩ => ⟨p, mem_append_left _ hp, hheld⟩
      · exact forall_mem_append.mpr ⟨hinv.slots, forall_mem_singleton.mpr hlt⟩
    · cases hstep
  | close =>
    rw [← some.inj hstep]
    refine { hinv with passed := ?_, known := ?_ }
    · refine forall_mem_append.mpr ⟨hinv.passed, forall_mem_singleton.mpr ?_⟩
      exact fun j (hj : decide (j < 0) = true) => absurd (of_decide_eq_true hj) (Nat.not_lt_zero j)
    · intro id w hw
      refine (hinv.known id w hw).imp_right (.imp_right (.imp_right ?_))
      exact fun ⟨c, hc, hheld⟩ => ⟨c, mem_append_left _ hc, hheld⟩
  | pipeStep t err =>
    unfold Mux.step at hstep
    dsimp only at hstep
    split at hstep
    · cases hstep
    next p ht =>
    split at hstep
    · cases hstep
    next mw hmw =>
    obtain ⟨p', mw', hchange⟩ := pipeStep_change hinv ht hmw hstep
    exact hchange.inv hinv ht hmw
  | closeStep t =>
    unfold Mux.step at hstep
    dsimp only at hstep
    cases ht : m.closes[t]? with
    | none => simp [ht] at hstep
    | some c =>
      rw [ht] at hstep
      cases c with
      | swapping i =>
        apply swap_inv hinv ht _ hstep
        intro p hp hslot
        unfold swapsSafely at hguard
        dsimp only at hguard
        rw [ht] at hguard
        have hidle := all_eq_true.mp hguard p hp
        rw [hslot, bne_self_eq_false, Bool.false_or, Bool.not_eq_true'] at hidle
        exact hidle
      | closing i id => exact closeWire_inv hinv ht hstep
  | fail id =>
    rw [← some.inj hstep]
    refine { hinv with known := ?_ }
    intro j w' hw'
    obtain ⟨w, hw, hgone⟩ := gone_of_modify
      (f := fun w => { w with failed := w.failed || !w.closed })
      (fun w _ => by simp [MadeWire.gone]; cases w.closed <;> simp) hw'
    exact (hinv.known j w hw).imp_left hgone
  | hook id =>
    unfold Mux.step at hstep
    dsimp only at hstep
    split at hstep
    · rename_i hw
      rw [← some.inj hstep]
      exact reset_inv hinv hw rfl
    · cases hstep
  | broken i w =>
    cases w with
    | init => cases hstep
    | dead =>
      -- the guard leaves nothing to swap
      unfold swapsSafely at hguard
      dsimp only at hguard
      rw [← some.inj hstep, Mux.reset]
      cases hmw : m.muxwires[i]? with
      | none => exact hinv
      | some mw =>
        rw [hmw] at hguard
        dsimp only
        rw [if_neg (by simpa using hguard)]
        exact hinv
    | live id =>
      unfold Mux.step at hstep
      dsimp only at hstep
      split at hstep
      · rename_i hw
        rw [← some.inj hstep]
        exact reset_inv hinv hw rfl
      · cases hstep

end Others

/-! ## Runs -/

/-- When `Close` and all calls have ended, nothing is left, if no muxwire was swapped while a
connection for it was on its way and no command has swapped the dead wire back. -/
theorem mux_close_final {n : Nat} {acts : List MuxAct} {m : Mux}
    (hrun : run Mux.step (Mux.new n) acts = some m)
    (hsafe : Machine.Guarded Mux.step (swapsSafely · · = true) (Mux.new n) acts)
    (hfinished : m.Finished) : m.Final := by
  have hinv : MuxInv m := run_invariant_guarded Mux.step
    (fun _ _ _ hinv hguard hstep => muxStep_inv hinv hguard hstep) (muxInv_new n) hsafe hrun
  obtain ⟨hpipes, hsome, hcloses⟩ := hfinished
  obtain ⟨c, hc⟩ := exists_mem_of_ne_nil m.closes hsome
  have hdead : ∀ mw ∈ m.muxwires, mw.wire = .dead := by
    intro mw hmw
    obtain ⟨i, hi⟩ := mem_iff_getElem?.mp hmw
    apply hinv.passed c hc i _ mw hi
    rw [hcloses c hc]
    exact decide_eq_true (List.getElem?_eq_some_iff.mp hi).1
  refine ⟨hdead, ?_⟩
  intro w hw
  obtain ⟨id, hid⟩ := mem_iff_getElem?.mp hw
  rcases hinv.known id w hid with hgone | ⟨mw, hmw, hlive⟩ | ⟨p, hp, hheld⟩ | ⟨c, hc, hheld⟩
  · exact Bool.or_eq_true_iff.mp hgone
  · rw [hdead mw hmw] at hlive
    cases hlive
  · rw [PipePc.held_of_isReturned (hpipes p hp)] at hheld
    cases hheld
  · rw [hcloses c hc] at hheld
    cases hheld

def connectActs : List MuxAct :=
  [.pipe 0, .pipeStep 0 none, .pipeStep 0 none, .pipeStep 0 none, .pipeStep 0 none,
    .pipeStep 0 none, .pipeStep 0 none, .pipeStep 0 none, .pipeStep 0 none]

theorem mux_close_final_connected :
    ∃ m, run Mux.step (Mux.new 1)
        (connectActs ++ [.close, .closeStep 0, .closeStep 0]) = some m ∧
      m.wires = [{ hook := some 0, closed := true }] ∧ m.Final :=
  ⟨_, rfl, rfl, mux_close_final
    (show run Mux.step (Mux.new 1) (connectActs ++ [.close, .closeStep 0, .closeStep 0]) =
      some _ from rfl) (by decide) (by decide)⟩

/-- `Close` while the connection is made: it ends up in the muxwire, and nobody closes it. -/
theorem connect_survives_close :
    ∃ m, run Mux.step (Mux.new 1)
        [.pipe 0, .pipeStep 0 none, .pipeStep 0 none, .pipeStep 0 none, .close, .closeStep 0,
          .pipeStep 0 none, .pipeStep 0 none, .pipeStep 0 none, .pipeStep 0 none,
          .pipeStep 0 none] = some m ∧
      m.Finished ∧ m.muxwires = [{ wire := .live 0 }] ∧ m.wires = [{ hook := some 0 }] ∧
      ¬ m.Final :=
  ⟨_, rfl, by decide, rfl, rfl, by decide⟩

-- a command with a done context opens a closed mux again
example : ∃ m, run Mux.step (Mux.new 1) [.close, .closeStep 0, .broken 0 .dead] = some m ∧
    m.Finished ∧ m.muxwires = [{}] :=
  ⟨_, rfl, by decide, rfl⟩

end Rueidis
