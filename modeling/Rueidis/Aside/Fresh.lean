import Rueidis.Aside.Flights
import Rueidis.Library.Decimal

/-!
# No stale value is stored

All flights of a client use the same placeholder, so `setkey` cannot tell them apart.  The lines can: a
marker id on a key was put there by the latest change of the key, and the flight that did it is the
latest flight of its client in the line, which is the one whose `setkey` is executed.
-/

namespace Rueidis.Aside

open List Option Function Decimal Machine Event

variable {act : AsideAct} {val : Option Bytes} {cmd : Command}

/-- The value that comes from outside: what others write, and what `fn` returns. -/
def AsideAct.value : AsideAct → Option Bytes
  | .write _ val | .act _ (.fnReturn val) => val
  | _ => none

def AsideAct.Clean (rand : Nat → Bytes) (act : AsideAct) : Prop :=
  ∀ val, act.value = some val → ∀ n, val ≠ marker rand n

theorem AsideAct.clean_of_not_placeholder (rand : Nat → Bytes)
    (h : ∀ val ∈ act.value, ¬ placeholderPrefix <+: val) : act.Clean rand := by
  rintro val hval n rfl
  exact h _ hval (prefix_append _ _)

structure System.Recorded (rand : Nat → Bytes) (s : System) : Prop where
  owned : ∀ c f k id, acquired c f k id ∈ s.redis.log → s.Owned rand id c
  placed : ∀ k n, s.redis.store k = some (marker rand n) → ∃ c f,
    History.Since s.redis.log (.acquired c f k (marker rand n)) (·.key = k)
  fresh : ∀ before c f k id val after,
    s.redis.log = before ++ stored c f k id val :: after →
    History.Since before (.acquired c f k id) (·.key = k)

variable {rest : List Command} {client : Nat}

section Recorded

variable {rand : Nat → Bytes} {s s' : System} {id : Bytes} {c : Nat} {k : Bytes}

theorem System.Owned.unique (hrand : Injective rand) {c' : Nat} (h : s.Owned rand id c)
    (h' : s.Owned rand id c') : c = c' := by
  obtain ⟨n, hid, hn⟩ := h
  obtain ⟨n', hid', hn'⟩ := h'
  have heq : n = n' := hrand (append_cancel_left (hid.symm.trans hid'))
  rw [← heq, hn] at hn'
  exact some.inj hn'

theorem System.Recorded.change (h : s.Recorded rand) {key : Bytes} {e : Event} (hkey : e.key = key)
    (hval : ∀ n, val = some (marker rand n) → ∃ c f, e = .acquired c f key (marker rand n))
    (howned : ∀ c f k id, e = .acquired c f k id → s.Owned rand id c)
    (hfresh : ∀ c f k id v, e = .stored c f k id v →
      History.Since s.redis.log (.acquired c f k id) (·.key = k)) :
    System.Recorded rand { s with redis := s.redis.change key val e } := by
  refine ⟨?_, ?_, ?_⟩
  · intro c f k id hmem
    rcases mem_append.mp hmem with hold | hnew
    · exact h.owned c f k id hold
    · exact howned c f k id (mem_singleton.mp hnew).symm
  · intro k n hk
    change (if k = key then val else s.redis.store k) = _ at hk
    split at hk
    next heq =>
      obtain ⟨c, f, he⟩ := hval n hk
      rw [heq, he]
      exact ⟨c, f, History.since_self⟩
    next hne =>
      obtain ⟨c, f, hsince⟩ := h.placed k n hk
      exact ⟨c, f, hsince.snoc (hkey ▸ Ne.symm hne)⟩
  · intro before c f k id v after hlog
    rcases History.snoc_eq_append_cons hlog with ⟨-, he, hold⟩ | ⟨l, -, hold⟩
    · rw [← hold]
      exact hfresh c f k id v he
    · exact h.fresh before c f k id v l hold

theorem mem_ticket {log : List Event} {f : Nat} (h : acquired c f k id ∈ log) :
    f ∈ log.filterMap (ticket c k) :=
  mem_filterMap.mpr ⟨_, h, if_pos ⟨rfl, rfl⟩⟩

/-- The flight whose `setkey` is next is the last one that got its placeholder on the key. -/
theorem System.Queued.flight_eq (h : s.Queued rand) {n f f' : Nat} {val id' : Bytes}
    (hqueue : s.queue c = ⟨n, .setkey f k id val⟩ :: rest)
    (hacquired : acquired c f k id ∈ s.redis.log)
    (hsince : History.Since s.redis.log (.acquired c f' k id') (·.key = k)) : f' = f := by
  have hline := h.line c k
  unfold System.line at hline
  rw [hqueue] at hline
  obtain ⟨hlog, -, hbefore⟩ := pairwise_append.mp hline
  obtain ⟨older, mid, heq, hmid⟩ := hsince
  have hle : f' ≤ f := by
    apply hbefore f'
    · rw [heq]
      exact mem_ticket (mem_append_right _ mem_cons_self)
    · exact mem_filterMap.mpr ⟨_, mem_cons_self, if_pos rfl⟩
  -- its own placeholder is not newer than the last one
  have hge : f ≤ f' := by
    rw [heq] at hacquired hlog
    rw [filterMap_append] at hlog
    rcases mem_append.mp hacquired with hold | hnew
    · exact (pairwise_append.mp hlog).2.2 f (mem_ticket hold) f' (mem_ticket mem_cons_self)
    · rcases mem_cons.mp hnew with hsame | hlater
      · cases hsame
        exact Nat.le_refl _
      · exact absurd rfl (hmid _ hlater)
  exact Nat.le_antisymm hle hge

theorem System.Recorded.execute (hrand : Injective rand) (h : s.Recorded rand) (hq : s.Queued rand)
    (hqueue : s.queue client = cmd :: rest) :
    System.Recorded rand { s with redis := cmd.op.run client s.redis } := by
  have hvalid := hq.op client cmd (by rw [hqueue]; exact mem_cons_self)
  obtain ⟨n, op⟩ := cmd
  cases op with
  | acquire f k id =>
    unfold Op.run
    dsimp only
    split
    · refine h.change rfl ?_ ?_ nofun
      · intro n hid
        rw [← some.inj hid]
        exact ⟨client, f, rfl⟩
      · intro c f' k' id' he
        cases he
        exact hvalid
    · exact h
  | setkey f k id val =>
    unfold Op.run
    dsimp only
    split
    · rename_i hid
      obtain ⟨hacquired, hclean⟩ := hvalid
      refine h.change rfl ?_ nofun ?_
      · intro n hval
        exact absurd (some.inj hval) (hclean n)
      · intro c f' k' id' v he
        cases he
        -- the placeholder is there, and this flight has put it there
        have howned := h.owned client f k id hacquired
        obtain ⟨m, rfl, -⟩ := howned
        obtain ⟨c', f', hsince⟩ := h.placed k m hid
        have hmem : acquired c' f' k (marker rand m) ∈ s.redis.log := by
          obtain ⟨older, mid, heq, -⟩ := hsince
          rw [heq]
          exact mem_append_right _ mem_cons_self
        have hclient : c' = client :=
          (h.owned c' f' k _ hmem).unique hrand (h.owned client f k _ hacquired)
        subst hclient
        rw [hq.flight_eq hqueue hacquired hsince] at hsince
        exact hsince
    · exact h
  | delkey k id =>
    unfold Op.run
    dsimp only
    split
    · exact h.change rfl nofun nofun nofun
    · exact h
  | set k val =>
    refine h.change rfl ?_ nofun nofun
    intro n hval
    exact absurd (some.inj hval) (hvalid n)
  | del k => exact h.change rfl nofun nofun nofun

theorem System.Recorded.mono (h : s.Recorded rand) (hgrows : Grows rand s s')
    (hredis : s'.redis = s.redis) : s'.Recorded rand := by
  constructor <;> rw [hredis]
  · exact fun c f k id hmem => hgrows.owned id c (h.owned c f k id hmem)
  · exact h.placed
  · exact h.fresh

end Recorded

/-! ## Runs -/

structure System.Inv (rand : Nat → Bytes) (s : System) : Prop where
  queued : s.Queued rand
  led : s.Led rand
  recorded : s.Recorded rand

section Runs

variable {rand : Nat → Bytes} {s s' : System}

variable (h : s.Inv rand)

include h

theorem System.Inv.issue {op : Op} (hop : op.Valid rand s client)
    (hticket : ∀ k, op.ticket k = none) : (s.issue client op).Inv rand := by
  refine ⟨h.queued.issue hop ?_, h.led.mono (grows_issue client op) rfl rfl,
    h.recorded.mono (grows_issue client op) rfl⟩
  intro k f hk
  rw [hticket k] at hk
  cases hk

theorem System.Inv.write (key : Bytes) (hval : ∀ n, val ≠ some (marker rand n)) :
    System.Inv rand { s with redis := s.redis.change key val (.changed key) } := by
  have hgrows : Grows rand s { s with redis := s.redis.change key val (.changed key) } :=
    ⟨fun _ _ h => h, fun _ h => mem_append_left _ h, Nat.le_refl _, fun _ _ h => .inl h⟩
  refine ⟨?_, h.led.mono hgrows rfl rfl,
    h.recorded.change rfl (fun n hn => absurd hn (hval n)) nofun nofun⟩
  exact h.queued.shrink hgrows h.queued.own (fun _ _ _ h => h) (fun _ _ h => h)
    fun c k => by rw [line_changed]

theorem System.Inv.lose (client i : Nat) :
    System.Inv rand { s with queue := s.setQueue client ((s.queue client).eraseIdx i) } := by
  have hmem : ∀ c, ∀ cmd ∈ s.setQueue client ((s.queue client).eraseIdx i) c, cmd ∈ s.queue c := by
    intro c cmd hcmd
    unfold System.setQueue at hcmd
    split at hcmd
    next hc =>
      rw [hc]
      exact mem_of_mem_eraseIdx hcmd
    · exact hcmd
  have hgrows : Grows rand s { s with queue := s.setQueue client ((s.queue client).eraseIdx i) } :=
    ⟨fun _ _ h => h, fun _ h => h, Nat.le_refl _, fun c cmd hcmd => .inl (hmem c cmd hcmd)⟩
  refine ⟨?_, h.led.mono hgrows rfl rfl, h.recorded.mono hgrows rfl⟩
  exact h.queued.shrink hgrows h.queued.own (fun _ _ _ h => h) hmem fun c k => line_lose client i

theorem System.Inv.setGets {gets : List Get} (hled : System.Led rand { s with gets := gets }) :
    System.Inv rand { s with gets := gets } :=
  ⟨{ h.queued with }, hled, { h.recorded with }⟩

omit h

theorem System.Inv.execute (hrand : Injective rand) (h : s.Inv rand)
    (hqueue : s.queue client = cmd :: rest) : (s.execute client cmd rest).Inv rand := by
  have hrecorded := h.recorded.execute hrand h.queued hqueue
  exact ⟨h.queued.execute hqueue, h.led.mono (grows_execute hqueue) rfl rfl, { hrecorded with }⟩

theorem System.Inv.step (hrand : Injective rand) (h : s.Inv rand) (hclean : act.Clean rand)
    (hstep : s.step rand act = some s') : s'.Inv rand := by
  cases act with
  | get client key hasFn =>
    rw [← some.inj hstep]
    exact h.setGets (h.led.get_call client key hasFn)
  | act t x =>
    obtain ⟨g, pc, ch, ht, hm, rfl⟩ := step_act hstep
    have hg := h.led.get g (mem_of_getElem? ht)
    have hvals : ∀ val, x = .fnReturn (some val) → ∀ n, val ≠ marker rand n := by
      rintro val rfl
      exact hclean val rfl
    have hqueued := h.queued.change hg hm hvals
    have hrecorded : (s.change rand g.client g.key ch).Recorded rand := by
      apply h.recorded.mono (grows_change s g.client g.key ch)
      cases ch <;> rfl
    exact ⟨{ hqueued with }, h.led.act h.queued hm ht, { hrecorded with }⟩
  | del client key =>
    rw [← some.inj hstep]
    exact h.issue trivial (fun _ => rfl)
  | invalidate client =>
    unfold System.step at hstep
    dsimp only at hstep
    split at hstep
    · rw [← some.inj hstep]
      exact h
    next id hid =>
      rw [← some.inj hstep]
      have hissue : (s.issue client (.del id)).Inv rand := h.issue trivial (fun _ => rfl)
      have hgrows : Grows rand s (s.issue client (.del id)) := grows_issue client _
      refine ⟨{ hissue.queued with own := ?_ }, h.led.mono { hgrows with } rfl rfl,
        { hissue.recorded with }⟩
      intro c id' hc
      change (if c = client then none else s.id c) = some id' at hc
      split at hc
      · cases hc
      · exact h.queued.own c id' hc
  | refresh n =>
    unfold System.step at hstep
    dsimp only at hstep
    split at hstep
    · cases hstep
    next client hn =>
      have hvalid : Op.Valid rand s client (.set (marker rand n) []) := marker_ne_nil
      rw [← some.inj hstep]
      exact h.issue hvalid (fun _ => rfl)
  | exec client delivered =>
    unfold System.step at hstep
    dsimp only at hstep
    split at hstep
    · cases hstep
    next cmd rest hqueue =>
      rw [← some.inj hstep]
      have hexecute := h.execute hrand hqueue
      cases delivered with
      | true => exact hexecute.setGets (h.led.deliver hqueue)
      | false => exact hexecute
  | lose client i =>
    rw [← some.inj hstep]
    exact h.lose client i
  | write key val =>
    rw [← some.inj hstep]
    apply h.write key
    intro n hn
    exact hclean _ hn n rfl
  | expire key =>
    rw [← some.inj hstep]
    exact h.write key nofun

theorem inv_init : System.Inv rand {} := by
  refine ⟨⟨nofun, nofun, fun _ => forall_mem_nil _, fun _ => forall_mem_nil _,
    fun _ _ => Pairwise.nil, fun _ _ => forall_mem_nil _⟩,
    ⟨forall_mem_nil _, ?_⟩, ⟨?_, nofun, ?_⟩⟩
  · intro t t' g g' f ht
    cases ht
  · intro c f k id hmem
    cases hmem
  · intro before c f k id val after hlog
    exact absurd hlog (append_ne_nil_of_right_ne_nil _ (cons_ne_nil _ _)).symm

/-- Between the placeholder that a flight got on a key and the value that its `setkey` wrote,
nothing changed the key. -/
theorem stored_since_acquired (rand : Nat → Bytes) (hrand : Function.Injective rand)
    (acts : List AsideAct) (hclean : ∀ act ∈ acts, act.Clean rand) (s : System)
    (hrun : run (System.step rand) {} acts = some s) (before after : List Event) (c f : Nat)
    (key id val : Bytes) (hlog : s.redis.log = before ++ .stored c f key id val :: after) :
    ∃ older mid, before = older ++ .acquired c f key id :: mid ∧ ∀ e ∈ mid, e.key ≠ key := by
  have h : s.Inv rand := run_invariant_mem (System.step rand)
    (fun _ _ _ hs hact hstep => System.Inv.step hrand hs hact hstep) inv_init hclean hrun
  exact h.recorded.fresh before c f key id val after hlog

end Runs

/-- A `Get` that leads the flight of its key, up to the call of `fn`; it has no id yet. -/
def AsideAct.toFn (t client : Nat) : List AsideAct :=
  [.act t (.read .nil), .act t .keepalive, .exec client true, .act t .mark, .act t .acquire,
    .exec client true]

theorem stored_since_acquired_contended :
    ∃ s before, run (System.step numeral) {}
        ([.get 0 (lit "k") true, .get 1 (lit "k") true] ++ AsideAct.toFn 0 0 ++ [.expire (lit "k")] ++
          AsideAct.toFn 1 1 ++ [.act 0 (.fnReturn (some (lit "old"))), .exec 0 true,
            .act 1 (.fnReturn (some (lit "new"))), .exec 1 true]) = some s ∧
      s.redis.log = before ++
        [.stored 1 3 (lit "k") (lit "rueidisid:1") (lit "new")] ∧
      ∃ older mid, before = older ++ .acquired 1 3 (lit "k") (lit "rueidisid:1") :: mid ∧
        ∀ e ∈ mid, e.key ≠ lit "k" := by
  have hrand : Injective numeral := by
    intro m n h
    rw [← foldl_numeral m, h, foldl_numeral]
  obtain ⟨s, hrun, hlog⟩ := exists_run (System.step numeral)
    (P := fun s => s.redis.log = [.changed (lit "rueidisid:0"),
      .acquired 0 0 (lit "k") (lit "rueidisid:0"), .changed (lit "k"), .changed (lit "rueidisid:1"),
      .acquired 1 3 (lit "k") (lit "rueidisid:1")] ++
        [.stored 1 3 (lit "k") (lit "rueidisid:1") (lit "new")]) {}
    ([.get 0 (lit "k") true, .get 1 (lit "k") true] ++ AsideAct.toFn 0 0 ++ [.expire (lit "k")] ++
      AsideAct.toFn 1 1 ++ [.act 0 (.fnReturn (some (lit "old"))), .exec 0 true,
        .act 1 (.fnReturn (some (lit "new"))), .exec 1 true]) (by decide +kernel)
  have hvalues : ∀ act ∈ ([.get 0 (lit "k") true, .get 1 (lit "k") true] ++ AsideAct.toFn 0 0 ++
      [.expire (lit "k")] ++ AsideAct.toFn 1 1 ++ [.act 0 (.fnReturn (some (lit "old"))), .exec 0 true,
        .act 1 (.fnReturn (some (lit "new"))), .exec 1 true] : List AsideAct),
      ∀ val ∈ act.value, ¬ placeholderPrefix <+: val := by decide +kernel
  exact ⟨s, _, hrun, hlog, stored_since_acquired numeral hrand _
    (fun act hact => AsideAct.clean_of_not_placeholder _ (hvalues act hact)) s hrun _ [] 1 3 _ _ _ hlog⟩

/-- Two populations of a client share its id: copying the placeholder of one key over the other key
changes that key, and its `setkey` still writes. -/
theorem stored_over_copied_placeholder :
    ∃ s before, run (System.step numeral) {}
        ([.get 0 (lit "k") true, .get 0 (lit "j") true] ++ AsideAct.toFn 0 0 ++
          [.act 1 (.read .nil), .act 1 .keepalive, .act 1 .acquire, .exec 0 true,
            .write (lit "k") (some (lit "rueidisid:0")), .act 0 (.fnReturn (some (lit "old"))),
            .exec 0 true]) = some s ∧
      s.redis.log = before ++ [.stored 0 0 (lit "k") (lit "rueidisid:0") (lit "old")] ∧
      ¬ ∃ older mid, before = older ++ .acquired 0 0 (lit "k") (lit "rueidisid:0") :: mid ∧
        ∀ e ∈ mid, e.key ≠ lit "k" := by
  obtain ⟨s, hrun, hlog⟩ := exists_run (System.step numeral)
    (P := fun s => s.redis.log = [.changed (lit "rueidisid:0"),
      .acquired 0 0 (lit "k") (lit "rueidisid:0"), .acquired 0 3 (lit "j") (lit "rueidisid:0")] ++
        [.changed (lit "k")] ++ [.stored 0 0 (lit "k") (lit "rueidisid:0") (lit "old")]) {}
    ([.get 0 (lit "k") true, .get 0 (lit "j") true] ++ AsideAct.toFn 0 0 ++
      [.act 1 (.read .nil), .act 1 .keepalive, .act 1 .acquire, .exec 0 true,
        .write (lit "k") (some (lit "rueidisid:0")), .act 0 (.fnReturn (some (lit "old"))),
        .exec 0 true]) (by decide +kernel)
  refine ⟨s, _, hrun, hlog, ?_⟩
  rintro ⟨older, mid, hbefore, hmid⟩
  -- the last change before the write is the copy
  have hlast := congrArg getLast? hbefore
  rw [getLast?_concat, getLast?_append] at hlast
  rcases mid.eq_nil_or_concat with rfl | ⟨mid, e, rfl⟩
  · cases hlast
  · rw [concat_eq_append, ← cons_append, getLast?_concat] at hlast
    exact hmid e (by simp) (by rw [← some.inj hlast]; rfl)

end Rueidis.Aside
