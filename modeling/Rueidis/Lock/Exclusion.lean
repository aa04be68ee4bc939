import Rueidis.Library.Quorum
import Rueidis.Lock.Gates

/-!
# Mutual exclusion

A lock that is held has a majority of the keys in Redis: as long as its context is not cancelled, no
monitor of a key it acquired gives the key up.  Two majorities share a key, and a key has one value.
The exception is a monitor whose `extend` fails: it deletes the key at once, and the context is
cancelled only when a majority of the keys is given up.
-/

namespace Rueidis.Lock

open List Option Machine Decimal History Threads

variable {i : Nat} {name : Bytes} {m : Monitor}

/-- The call returned its context and it is not cancelled. -/
def Attempt.live (a : Attempt) : Bool := a.pc == .held && !a.cancelled

def LockAct.InScope : LockAct → Prop
  | .start _ _ kind => kind ≠ .force
  | .expire _ => False
  | _ => True

instance : ∀ act, Decidable (LockAct.InScope act)
  | .start _ _ kind => inferInstanceAs (Decidable (kind ≠ .force))
  | .expire _ => inferInstanceAs (Decidable False)
  | .act _ _ | .runLate _ => inferInstanceAs (Decidable True)

def Attempt.extends (a : Attempt) : AttemptAct → Bool
  | .extend _ out => out.answered || a.cancelled
  | _ => true

def System.Extends (s : System) : LockAct → Prop
  | .act t x => ∀ a ∈ s.attempts[t]?, a.extends x = true
  | _ => True

instance (s : System) : ∀ act, Decidable (s.Extends act)
  | .act t x => inferInstanceAs (Decidable (∀ a ∈ s.attempts[t]?, a.extends x = true))
  | .start _ _ _ | .runLate _ | .expire _ => inferInstanceAs (Decidable True)

/-! ## Keys -/

section Keys

variable {opt : LockOption} {store : Store} {a a' : Attempt} {x : AttemptAct} {e : Effect}
  {attempts : List Attempt}

variable {script : Script} {out : Outcome}

theorem keyname_injective {j : Nat} (h : keyname opt name i = keyname opt name j) : i = j := by
  have hnumeral : numeral i = numeral j :=
    append_cancel_left (append_cancel_right (append_cancel_right h))
  rw [← foldl_numeral i, hnumeral, foldl_numeral]

/-- The keys the attempt acquired are watched and have its value, unless its context is
cancelled. -/
def Attempt.Keeps (opt : LockOption) (store : Store) (a : Attempt) : Prop :=
  ∀ i m, a.monitors[i]? = some m → m.ok = true →
    a.cancelled = true ∨ (m.pc = .watching ∧ store (a.key opt i) = some a.val)

def Script.Harmless (opt : LockOption) (attempts : List Attempt) : Script → Prop
  | .set _ _ force => force = false
  | .del key val => ∃ a i m, attempts[val]? = some a ∧ key = a.key opt i ∧ a.monitors[i]? = some m ∧
      (m.ok = true → a.cancelled = true)

theorem Attempt.Keeps.run {b : Attempt} (h : b.Keeps opt store) (hb : attempts[b.val]? = some b)
    (hscript : script.Harmless opt attempts) : b.Keeps opt (script.run store) := by
  intro i m hi hok
  rcases h i m hi hok with hcancelled | ⟨hwatching, hkey⟩
  · exact .inl hcancelled
  cases script with
  | set key val force =>
    refine .inr ⟨hwatching, ?_⟩
    dsimp only [Script.run]
    split
    next hset =>
      -- the key that is set had no value
      have hnone : store key = none := hset.resolve_left (by rw [hscript]; exact Bool.false_ne_true)
      refine (if_neg ?_).trans hkey
      intro hsame
      cases (hsame ▸ hkey).symm.trans hnone
    · exact hkey
  | del key val =>
    dsimp only [Script.run]
    split
    next hdel =>
      by_cases hsame : b.key opt i = key
      · -- only its own monitor deletes the key
        obtain ⟨a, j, m', hat, rfl, hj, hcancelled⟩ := hscript
        rw [hsame, hdel] at hkey
        rw [some.inj hkey, hb] at hat
        cases hat
        rw [← keyname_injective hsame, hi] at hj
        cases hj
        exact .inl (hcancelled hok)
      · exact .inr ⟨hwatching, (if_neg hsame).trans hkey⟩
    · exact .inr ⟨hwatching, hkey⟩

theorem Moves.monitors (h : Moves opt store a x a' e) (hi : a.monitors[i]? = some m) :
    (∃ m', a'.monitors[i]? = some m' ∧ m'.ok = m.ok) ∧
      (a.cancelled = true → a'.cancelled = true) := by
  have happend : ∀ m₁ : Monitor, (a.monitors ++ [m₁])[i]? = some m := fun m₁ =>
    (getElem?_snoc_iff ..).mpr (.inl hi)
  have hset : ∀ {j : Nat} {m₁ m₂ : Monitor}, a.monitors[j]? = some m₁ → m₂.ok = m₁.ok →
      ∃ m', (a.monitors.set j m₂)[i]? = some m' ∧ m'.ok = m.ok := by
    intro j m₁ m₂ hj hok
    refine getElem?_set_of hj ⟨m, hi, rfl⟩ ?_
    rintro rfl
    rw [hi] at hj
    rw [hok, ← some.inj hj]
  cases h with
  | acquire out | acquireRest out => exact ⟨⟨m, happend _, rfl⟩, id⟩
  | fire | cancel | removegate | leave => exact ⟨⟨m, hi, rfl⟩, fun _ => rfl⟩
  | monitor x j ok pc pc' hj | delkey j ok out hj | release j ok hj => exact ⟨hset hj rfl, id⟩
  | cancelAt j ok last hj => exact ⟨hset hj rfl, fun _ => rfl⟩
  | _ => exact ⟨⟨m, hi, rfl⟩, id⟩

theorem Script.Harmless.moves {t : Nat} (hat : attempts[t]? = some a)
    (hm : Moves opt store a x a' e) (h : script.Harmless opt attempts) :
    script.Harmless opt (attempts.set t a') := by
  cases script with
  | set key val force => exact h
  | del key val =>
    obtain ⟨b, i, m, hb, hkey, hi, hcancelled⟩ := h
    by_cases htv : t = val
    · subst htv
      rw [hat] at hb
      cases hb
      obtain ⟨⟨m', hi', hok⟩, hmono⟩ := hm.monitors hi
      refine ⟨a', i, m', ?_, ?_, hi', ?_⟩
      · exact List.getElem?_set_self (List.getElem?_eq_some_iff.mp hat).1
      · unfold Attempt.key
        rw [hm.frame.2.2.1]
        exact hkey
      · rw [hok]
        exact fun hm => hmono (hcancelled hm)
    · refine ⟨b, i, m, ?_, hkey, hi, hcancelled⟩
      rw [getElem?_set_ne htv]
      exact hb

theorem Script.Harmless.append (h : script.Harmless opt attempts) (b : Attempt) :
    script.Harmless opt (attempts ++ [b]) := by
  cases script with
  | set key val force => exact h
  | del key val =>
    obtain ⟨a, i, m, hat, hmonitor⟩ := h
    exact ⟨a, i, m, (getElem?_snoc_iff ..).mpr (.inl hat), hmonitor⟩

theorem Moves.harmless (hm : Moves opt store a x a' e) (hkind : a.kind ≠ .force)
    (hat : attempts[a.val]? = some a) (h : a.Keeps opt store) :
    ∀ script, e.ran = some script ∨ e.late = some script → script.Harmless opt attempts := by
  have hcall : ∀ (script : Script) (out : Outcome), script.Harmless opt attempts →
      ∀ script', (Effect.ofCall script out).ran = some script' ∨
        (Effect.ofCall script out).late = some script' → script'.Harmless opt attempts := by
    intro script out hscript script' hcase
    have heq : script = script' := by
      cases out <;> rcases hcase with hcall | hcall <;> cases hcall <;> rfl
    exact heq ▸ hscript
  have hset : (a.setScript opt).Harmless opt attempts := beq_false_of_ne hkind
  have hacquire : ∀ out script, (a.acquireEffect opt out).ran = some script ∨
      (a.acquireEffect opt out).late = some script → script.Harmless opt attempts := by
    intro out script hcase
    unfold Attempt.acquireEffect at hcase
    split at hcase
    · exact hcase.elim nofun nofun
    · exact hcall _ out hset script hcase
  cases hm with
  | acquire out | acquireRest out => exact hacquire out
  | delkey i ok out hi =>
    apply hcall
    refine ⟨a, i, _, hat, rfl, hi, ?_⟩
    intro hok
    rcases h i _ hi hok with hcancelled | ⟨hwatching, -⟩
    · exact hcancelled
    · cases hwatching
  | _ => exact fun script hcase => hcase.elim nofun nofun

theorem Attempt.Keeps.setMonitor (h : a.Keeps opt store) {m' : Monitor}
    (hself : m'.ok = true → a.cancelled = true) : (a.setMonitor i m').Keeps opt store := by
  intro j m₁ hj hok
  rcases of_getElem?_set hj with ⟨-, rfl⟩ | ⟨-, hj⟩
  · exact .inl (hself hok)
  · exact h j m₁ hj hok

theorem acquireErr_eq_none (hkind : a.kind ≠ .force) (h : a.acquireErr opt store out = .none) :
    (a.acquireEffect opt out).ran.elim store (·.run store) =
      store.put (a.key opt a.monitors.length) (some a.val) := by
  unfold Attempt.acquireErr at h
  unfold Attempt.acquireEffect
  split at h
  · cases h
  next herr =>
  rw [if_neg herr]
  cases out with
  | replied =>
    dsimp only at h
    split at h
    next hfree => exact if_pos (.inr (hfree.resolve_left hkind))
    · cases h
  | retried | lost | failed => cases h

theorem Attempt.Keeps.acquireNext (hkind : a.kind ≠ .force)
    (h : a.Keeps opt ((a.acquireEffect opt out).ran.elim store (·.run store))) :
    (a.acquireNext opt store out).Keeps opt
      ((a.acquireEffect opt out).ran.elim store (·.run store)) := by
  intro i m hi hok
  rcases (getElem?_snoc_iff ..).mp hi with hi | ⟨rfl, rfl⟩
  · exact h i m hi hok
  · rw [newMonitor_ok] at hok
    have hnone := eq_of_beq hok
    refine .inr ⟨by rw [hnone]; rfl, ?_⟩
    rw [acquireErr_eq_none hkind hnone]
    exact if_pos rfl

theorem Attempt.Keeps.moves (hm : Moves opt store a x a' e) (hkind : a.kind ≠ .force)
    (hext : a.extends x = true) (h : a.Keeps opt store)
    (h' : a.Keeps opt (e.ran.elim store (·.run store))) :
    a'.Keeps opt (e.ran.elim store (·.run store)) := by
  -- a monitor that does not watch any more
  have hpast : ∀ {i : Nat} {ok : Bool} {pc : MonitorPc}, a.monitors[i]? = some ⟨ok, pc⟩ →
      pc ≠ .watching → ok = true → a.cancelled = true := by
    intro i ok pc hi hpc hok
    exact (h i _ hi hok).resolve_right fun hkept => hpc hkept.1
  cases hm with
  | acquire out | acquireRest out => exact h'.acquireNext hkind
  | fire | cancel | removegate | leave => exact fun _ _ _ _ => .inl rfl
  | monitor x i ok pc pc' hi hcase =>
    refine h.setMonitor ?_
    intro hok
    rcases hcase with ⟨-, -, -, hcancelled⟩ | ⟨out, -, -, -, hkey⟩ | ⟨out, hout, rfl, -, -⟩
    · exact hcancelled
    · exact (h i _ hi hok).resolve_right fun hkept => hkey hkept.2
    · change (out.answered || a.cancelled) = true at hext
      rw [hout] at hext
      exact hext
  | delkey i ok out hi => exact h'.setMonitor (hpast hi nofun)
  | release i ok hi => exact h.setMonitor (hpast hi nofun)
  | cancelAt i ok last hi => exact fun _ _ _ _ => .inl rfl
  | _ => exact h

end Keys

/-! ## The system -/

structure System.Kept (opt : LockOption) (s : System) : Prop where
  vals : ∀ (t : Nat) (a : Attempt), s.attempts[t]? = some a → a.val = t
  attempts : ∀ a ∈ s.attempts, a.Counted opt ∧ a.kind ≠ .force ∧ a.Keeps opt s.store
  late : ∀ script ∈ s.late, script.Harmless opt s.attempts

section System

variable {opt : LockOption} {s s' : System} {x : AttemptAct} {a : Attempt}

variable (h : s.Kept opt)

include h

theorem System.Kept.getElem?_val (ha : a ∈ s.attempts) : s.attempts[a.val]? = some a := by
  obtain ⟨t, ht⟩ := mem_iff_getElem?.mp ha
  rw [h.vals t a ht]
  exact ht

theorem System.Kept.start {locker : Nat} {kind : Kind} (hkind : kind ≠ .force)
    (hstep : s.step opt (.start locker name kind) = some s') : s'.Kept opt := by
  rw [← some.inj hstep]
  have hstore : (s.getgate locker name).2.store = s.store := by
    unfold System.getgate
    split <;> rfl
  have hlate : (s.getgate locker name).2.late = s.late := by
    unfold System.getgate
    split <;> rfl
  refine ⟨?_, ?_, ?_⟩
  · intro t a hat
    rcases (getElem?_snoc_iff ..).mp hat with hat | ⟨rfl, rfl⟩
    · exact h.vals t a hat
    · rfl
  · rw [hstore]
    refine forall_mem_append.mpr ⟨h.attempts, forall_mem_singleton.mpr ?_⟩
    refine ⟨counted_new _ _ _ _ _, hkind, ?_⟩
    intro i m hi
    cases hi
  · rw [hlate]
    intro script hscript
    exact (h.late script hscript).append _

theorem System.Kept.act {t : Nat} (hext : s.Extends (.act t x))
    (hstep : s.step opt (.act t x) = some s') : s'.Kept opt := by
  obtain ⟨a, a', e, hat, hm, rfl⟩ := step_act hstep
  have hmem := mem_of_getElem? hat
  obtain ⟨hcounted, hkind, hkeeps⟩ := h.attempts a hmem
  have hscripts := hm.harmless hkind (h.getElem?_val hmem) hkeeps
  have hkeeps' : ∀ b ∈ s.attempts, b.Keeps opt (e.ran.elim s.store (·.run s.store)) := by
    intro b hb
    cases hran : e.ran with
    | none => exact (h.attempts b hb).2.2
    | some script => exact (h.attempts b hb).2.2.run (h.getElem?_val hb) (hscripts script (.inl hran))
  obtain ⟨hval, -, -, hkind', -⟩ := hm.frame
  refine ⟨?_, ?_, ?_⟩
  · intro u b hu
    rcases of_getElem?_set hu with ⟨rfl, rfl⟩ | ⟨-, hu⟩
    · exact hval.trans (h.vals u a hat)
    · exact h.vals u b hu
  · apply forall_mem_set
    · intro b hb
      exact ⟨(h.attempts b hb).1, (h.attempts b hb).2.1, hkeeps' b hb⟩
    · refine ⟨hcounted.moves hm, ?_, Attempt.Keeps.moves hm hkind (hext a hat) hkeeps (hkeeps' a hmem)⟩
      rw [hkind']
      exact hkind
  · intro script hscript
    refine Script.Harmless.moves hat hm ?_
    rcases mem_append.mp hscript with hold | hnew
    · exact h.late script hold
    · exact hscripts script (.inr (mem_toList.mp hnew))

theorem System.Kept.step {act : LockAct} (hscope : act.InScope) (hext : s.Extends act)
    (hstep : s.step opt act = some s') : s'.Kept opt := by
  cases act with
  | start locker name kind => exact h.start hscope hstep
  | act t x => exact h.act hext hstep
  | runLate k =>
    unfold System.step at hstep
    dsimp only at hstep
    split at hstep
    · cases hstep
    · rename_i script hk
      rw [← some.inj hstep]
      have hscript := h.late script (mem_of_getElem? hk)
      refine ⟨h.vals, ?_, ?_⟩
      · intro a ha
        obtain ⟨hcounted, hkind, hkeeps⟩ := h.attempts a ha
        exact ⟨hcounted, hkind, hkeeps.run (h.getElem?_val ha) hscript⟩
      · intro script' hscript'
        exact h.late script' (mem_of_mem_eraseIdx hscript')
  | expire key => exact hscope.elim

omit h

theorem kept_init : System.Kept opt {} := by
  refine ⟨?_, forall_mem_nil _, forall_mem_nil _⟩
  intro t a hat
  cases hat

theorem Attempt.Counted.majority_le (h : a.Counted opt) (hpc : a.pc = .held) :
    opt.majority ≤ a.monitors.countP Monitor.ok := by
  have hstopped := h.settled (by rw [hpc]; rfl)
  have hfew := h.held hpc
  apply Nat.le_trans _ (Nat.le_of_add_right_le h.ok)
  by_contra hlt
  have hgo := Attempt.goesOn_iff.mpr ⟨Nat.lt_of_not_le hlt, hfew⟩
  rw [hstopped] at hgo
  cases hgo

theorem Attempt.Keeps.store_eq (h : a.Keeps opt s.store) (hlive : a.live = true)
    (hi : a.monitors[i]? = some m) (hok : m.ok = true) : s.store (a.key opt i) = some a.val := by
  rcases h i m hi hok with hcancelled | ⟨-, hkey⟩
  · have hnot := (Bool.and_eq_true_iff.mp hlive).2
    rw [hcancelled] at hnot
    cases hnot
  · exact hkey

/-- In every run in which `extend` fails only for contexts that are cancelled, no two contexts of
one name are returned and not cancelled. -/
theorem live_unique (opt : LockOption) (acts : List LockAct) (s : System)
    (hguard : Machine.Guarded (System.step opt) (fun s act => act.InScope ∧ s.Extends act) {} acts)
    (hrun : run (System.step opt) {} acts = some s) (t u : Nat) (a b : Attempt)
    (ht : s.attempts[t]? = some a) (hu : s.attempts[u]? = some b) (hname : a.name = b.name)
    (ha : a.live = true) (hb : b.live = true) : t = u := by
  have h : s.Kept opt := run_invariant_guarded (System.step opt)
    (fun _ _ _ hs hg hstep => System.Kept.step hs hg.1 hg.2 hstep) kept_init hguard hrun
  obtain ⟨hcounted, -, hkeeps⟩ := h.attempts a (mem_of_getElem? ht)
  obtain ⟨hcounted', -, hkeeps'⟩ := h.attempts b (mem_of_getElem? hu)
  have hmost := hcounted.majority_le (eq_of_beq (Bool.and_eq_true_iff.mp ha).1)
  have hmost' := hcounted'.majority_le (eq_of_beq (Bool.and_eq_true_iff.mp hb).1)
  -- two majorities of the keys share one
  have htotal : opt.totalcnt = opt.majority * 2 - 1 := rfl
  have hm1 := opt.one_le_majority
  obtain ⟨i, m, m', hi, hi', hok, hok'⟩ :=
    Quorum.exists_common (p := Monitor.ok) (q := Monitor.ok) hcounted.length hcounted'.length
      (by omega)
  have hkey := hkeeps.store_eq ha hi hok
  have hkey' := hkeeps'.store_eq hb hi' hok'
  have hsame : a.key opt i = b.key opt i := by
    unfold Attempt.key
    rw [hname]
  rw [hsame, hkey', h.vals t a ht, h.vals u b hu] at hkey
  exact (some.inj hkey).symm

end System

theorem live_unique_contended :
    ∃ s a, run (System.step ⟨lit "p", 1, by decide⟩) {}
        ([.start 0 (lit "n") .once, .start 1 (lit "n") .once] ++ LockAct.winning 0 ++ [.act 0 .stop] ++
          LockAct.winning 1 ++ [.act 1 .stop, .act 0 (.extend 0 .replied)]) = some s ∧
      s.attempts[0]? = some a ∧ a.live = true ∧
      ∀ u b, s.attempts[u]? = some b → b.name = lit "n" → b.live = true → u = 0 := by
  obtain ⟨s, hrun, hs⟩ := exists_run (System.step ⟨lit "p", 1, by decide⟩)
    (P := fun s => (s.attempts[0]?.any fun a => a.name == lit "n" && a.live) = true) {}
    ([.start 0 (lit "n") .once, .start 1 (lit "n") .once] ++ LockAct.winning 0 ++ [.act 0 .stop] ++
      LockAct.winning 1 ++ [.act 1 .stop, .act 0 (.extend 0 .replied)]) (by decide +kernel)
  obtain ⟨a, ha, hlive⟩ := (any_eq_true _ _).mp hs
  have ⟨hname, hlive⟩ := Bool.and_eq_true_iff.mp hlive
  refine ⟨s, a, hrun, ha, hlive, ?_⟩
  intro u b hu hb hblive
  exact live_unique _ _ s (by decide +kernel) hrun u 0 b a hu ha (hb.trans (eq_of_beq hname).symm)
    hblive hlive

/-- The monitor of a lock deletes its key after `extend` failed; another locker acquires the key
before the monitor cancels the context. -/
theorem two_live_after_failed_extend :
    (∀ act ∈ ([.start 0 (lit "n") .once] ++ LockAct.winning 0 ++
        [.act 0 .stop, .act 0 (.extend 0 .failed), .act 0 (.delkey 0 .replied),
          .start 1 (lit "n") .once] ++ LockAct.winning 1 ++ [.act 1 .stop] : List LockAct),
      act.InScope) ∧
    ∃ s, run (System.step ⟨lit "p", 1, by decide⟩) {}
        ([.start 0 (lit "n") .once] ++ LockAct.winning 0 ++
          [.act 0 .stop, .act 0 (.extend 0 .failed), .act 0 (.delkey 0 .replied),
            .start 1 (lit "n") .once] ++ LockAct.winning 1 ++ [.act 1 .stop]) = some s ∧
      s.attempts.map (fun a => (a.name, a.live)) = [(lit "n", true), (lit "n", true)] := by
  constructor
  · decide
  · apply exists_run
    decide +kernel

end Rueidis.Lock
