import Rueidis.Cluster.CachedBatch
import Rueidis.Cluster.OwnResults
import Rueidis.Library.Rounds

/-!
# Commands that are not to be tried again

A command whose retry has a negative delay is put into the retries all the same, and whether the retries
are sent again is decided for the whole round.
-/

namespace Rueidis

open List Option Rounds Machine Threads

variable {attempts redirects : Nat} {marked again : List Nat} {p : Picking}

/-- A round is followed by another: it has seen redirections and their limit is not reached, or it
has seen none, but a delay that is not negative. -/
def ClusterClient.GoesOn (c : ClusterClient) (redirects seen : Nat) (delay : Int) : Prop :=
  0 < seen ∧ ¬ (0 < c.maxMovedRedirections ∧ c.maxMovedRedirections < redirects + 1) ∨
    seen = 0 ∧ 0 ≤ delay

instance (c : ClusterClient) (redirects seen : Nat) (delay : Int) :
    Decidable (c.GoesOn redirects seen delay) :=
  inferInstanceAs (Decidable (_ ∨ _))

/-! ## `DoMulti` -/

variable {re : Retry} {asking : Bool} {i ii cc : Nat}

namespace Goroutine

def pending (re : Retry) : Pc → List Nat
  | .call false _ _ => re.cIndexes ++ re.aIndexes
  | .call true _ _ => re.aIndexes
  | .handle asking _ _ _ => if asking then [] else re.aIndexes
  | .add asking _ _ _ _ => if asking then [] else re.aIndexes
  | .done => []

theorem pending_sublist (re : Retry) (pc : Pc) :
    (pending re pc).Sublist (re.cIndexes ++ re.aIndexes) := by
  have hlater : ∀ asking : Bool,
      (if asking then [] else re.aIndexes).Sublist (re.cIndexes ++ re.aIndexes) := by
    intro asking
    cases asking with
    | true => exact nil_sublist _
    | false => exact sublist_append_right _ _
  cases pc with
  | call asking start got =>
    cases asking with
    | true => exact sublist_append_right _ _
    | false => exact Sublist.refl _
  | handle asking got i sc => exact hlater asking
  | add asking got i sc a => exact hlater asking
  | done => exact nil_sublist _

theorem index_pending_sublist (h : (re.indexes asking)[i]? = some ii) :
    ([ii] ++ if asking then [] else re.aIndexes).Sublist (re.cIndexes ++ re.aIndexes) := by
  have hmem : [ii].Sublist (re.indexes asking) :=
    singleton_sublist.mpr (mem_of_getElem? h)
  cases asking with
  | true => exact hmem.trans (sublist_append_right _ _)
  | false => exact hmem.append (Sublist.refl _)

def task (g : Goroutine) : Rounds.Task Nat :=
  { all := g.re.cIndexes ++ g.re.aIndexes
    pending := pending g.re g.pc
    pending_sublist := pending_sublist g.re g.pc }

end Goroutine

namespace BatchState

open Goroutine

variable (c : ClusterClient) (hasInit : Bool)

variable {g : Goroutine} {r retries : Connretry} {got : List Heard}

def view (s : BatchState) : Rounds.View Nat := ⟨s.goroutines.map Goroutine.task, s.running, s.returned⟩

def declines (s : BatchState) : BatchStep → List Nat
  | .handle t =>
    match s.goroutines[t]? with
    | some ⟨cc, re, .handle asking got i _⟩ =>
      match got[i]?, (re.cmds asking)[i]?, (re.indexes asking)[i]? with
      | some (resp, now), some cm, some ii =>
        let rd := c.round asking s.round cc s.attempts hasInit
        match shouldRefreshRetry now resp.error with
        | .ok (_, .retry) =>
          if resends rd cm .retry ∧ rd.retryDelay rd.attempts cm resp.error < 0 then [ii]
          else []
        | _ => []
      | _, _, _ => []
    | _ => []
  | _ => []

def sends (s : BatchState) (a : BatchStep) : List Nat :=
  match s.step c hasInit a with
  | some s' => (s'.log.drop s.log.length).map Sent.index
  | none => []

/-- No round in which a command was declined goes on.  In a batch with transactions, moreover, no
command is in the buckets twice at the beginning of a round. -/
def Calm (multi : List Completed) (w : Rounds.Watched BatchState Nat) : BatchStep → Prop
  | .launch => (∃ cmd ∈ multi, isMulti cmd = true) → (w.state.retries.all.map (·.1)).Nodup
  | .join _ => w.marked = [] ∨
      ¬ c.GoesOn w.state.redirects w.state.retries.redirects w.state.retries.retryDelay
  | _ => True

instance decidableCalm (multi : List Completed) (w : Rounds.Watched BatchState Nat) :
    (a : BatchStep) → Decidable (Calm c multi w a)
  | .launch => inferInstanceAs (Decidable ((∃ cmd ∈ multi, isMulti cmd = true) → _))
  | .join _ => inferInstanceAs (Decidable (_ ∨ _))
  | .answer _ _ => isTrue trivial
  | .handle _ => isTrue trivial
  | .add _ => isTrue trivial

structure Sound (multi : List Completed) (s : BatchState) : Prop where
  keys : (Buckets.keys s.retries.m).Nodup
  aligned : ∀ q ∈ s.retries.m, q.2.Aligned
  goroutines : ∀ g ∈ s.goroutines, g.re.Aligned
  idle : s.running = false → s.goroutines = []
  single : (∀ cmd ∈ multi, isMulti cmd = false) → Inv multi s

variable {c hasInit} {multi : List Completed} {s s' : BatchState} {t : Nat}

/-! ### Sound states -/

theorem Sound.running (h : Sound multi s) (hg : g ∈ s.goroutines) : s.running = true := by
  cases hr : s.running with
  | true => rfl
  | false =>
    rw [h.idle hr] at hg
    cases hg

theorem Sound.act (h : Sound multi s) {g' : Goroutine} (ht : s.goroutines[t]? = some g)
    (hg : s'.goroutines = s.goroutines.set t g') (hre : g'.re = g.re) (hr : s'.running = s.running)
    (hkeys : (Buckets.keys s'.retries.m).Nodup) (haligned : ∀ q ∈ s'.retries.m, q.2.Aligned)
    (hsingle : (∀ cmd ∈ multi, isMulti cmd = false) → Inv multi s') : Sound multi s' := by
  refine ⟨hkeys, haligned, ?_, ?_, hsingle⟩
  · rw [hg]
    apply forall_mem_set h.goroutines
    rw [hre]
    exact h.goroutines g (mem_of_getElem? ht)
  · intro hidle
    rw [hr, h.running (mem_of_getElem? ht)] at hidle
    cases hidle

theorem good_add (hkeys : (Buckets.keys r.m).Nodup) (hm : ∀ q ∈ r.m, q.2.Aligned)
    (cIndexes : List Nat) (commands : List Completed) (a : Added) :
    (Buckets.keys (r.add cIndexes commands a).m).Nodup ∧
      ∀ q ∈ (r.add cIndexes commands a).m, q.2.Aligned := by
  have hbucket : (r.bucket a.nc).Aligned := Buckets.good_getD hm Retry.laws.good_empty a.nc
  constructor
  · exact Buckets.nodup_put hkeys _ _
  · intro q hq
    rcases Buckets.mem_put hq with rfl | hold
    · exact hbucket.append a.mode (by rw [length_map, length_map])
    · exact hm q hold

variable {a : BatchStep} {sc : Scan}

theorem Sound.step (h : Sound multi s) (hstep : s.step c hasInit a = some s') : Sound multi s' := by
  have hsingle : (∀ cmd ∈ multi, isMulti cmd = false) → Inv multi s' :=
    fun hmulti => (h.single hmulti).step hmulti hstep
  cases taken_of_step hstep with
  | launch =>
    refine ⟨nodup_nil, forall_mem_nil _, ?_, (fun hr => by cases hr), hsingle⟩
    intro g hg
    obtain ⟨q, hq, rfl⟩ := mem_map.mp hg
    exact h.aligned q hq
  | answer ht => exact h.act ht rfl rfl rfl h.keys h.aligned hsingle
  | finished ht => exact h.act ht rfl rfl rfl h.keys h.aligned hsingle
  | handled ht => exact h.act ht rfl rfl rfl h.keys h.aligned hsingle
  | add ht =>
    have hadd := good_add h.keys h.aligned
    exact h.act ht rfl rfl rfl (hadd _ _ _).1 (hadd _ _ _).2 hsingle
  | again _ _ _ hperm hnext =>
    have hretries := c.next_again (Buckets.nodup_keys_of_perm hperm h.keys)
      (fun q hq => h.aligned q (hperm.mem_iff.mp hq)) hnext
    exact ⟨hretries.1, hretries.2.1, forall_mem_nil _, fun _ => rfl, hsingle⟩
  | returned => exact ⟨h.keys, h.aligned, h.goroutines, h.idle, hsingle⟩

/-! ### What a step sends and declines -/

theorem sends_eq (hstep : s.step c hasInit a = some s') {es : List Sent}
    (hlog : s'.log = s.log ++ es) : s.sends c hasInit a = es.map Sent.index := by
  unfold sends
  rw [hstep]
  dsimp only
  rw [hlog, drop_left]

variable (ht : s.goroutines[t]? = some ⟨cc, re, .handle asking got i sc⟩)

include ht

theorem declines_handle :
    s.declines c hasInit (.handle t) = [] ∨ ∃ ii resp now cm addr,
      s.declines c hasInit (.handle t) = [ii] ∧ (re.indexes asking)[i]? = some ii ∧
      got[i]? = some (resp, now) ∧ (re.cmds asking)[i]? = some cm ∧
      shouldRefreshRetry now resp.error = .ok (addr, .retry) ∧
      resends (c.round asking s.round cc s.attempts hasInit) cm .retry = true := by
  dsimp only [declines]
  rw [ht]
  dsimp only
  split
  · rename_i resp now cm ii hgot hcm hii
    split
    · rename_i addr hmode
      split
      · rename_i hdelay
        exact Or.inr ⟨ii, resp, now, cm, addr, rfl, hii, hgot, hcm, hmode, hdelay.1⟩
      · exact Or.inl rfl
    · exact Or.inl rfl
  · exact Or.inl rfl

theorem declines_finished (hgot : got[i]? = none) : s.declines c hasInit (.handle t) = [] := by
  rcases declines_handle ht with hnil | ⟨ii, resp, now, cm, addr, -, -, hsome, -⟩
  · exact hnil
  · rw [hgot] at hsome
    cases hsome

omit ht

/-! ### Rounds -/

theorem again_iff_goesOn {k : Nat} :
    (∃ r' attempts' redirects', c.next k r attempts redirects = .again r' attempts' redirects') ↔
      r.m ≠ [] ∧ c.GoesOn redirects r.redirects r.retryDelay := by
  unfold ClusterClient.next ClusterClient.GoesOn
  rw [Ne, ← List.isEmpty_iff]
  split_ifs <;> simp <;> grind

theorem pending_askings_subset (re : Retry) : pending re (askings re) ⊆ re.aIndexes := by
  unfold askings
  split
  · exact nil_subset _
  · exact Subset.refl _

theorem Retry.map_fst_all (h : re.Aligned) : re.all.map (·.1) = re.cIndexes ++ re.aIndexes := by
  rw [Retry.all, map_append, h.map_fst_part, h.map_fst_part]
  rfl

theorem Sound.rounds_step (h : Sound multi s) (hcalm : Calm c multi ⟨s, marked, again⟩ a)
    (hstep : s.step c hasInit a = some s') :
    Rounds.Step marked s.view s'.view (s.declines c hasInit a) (s.sends c hasInit a) := by
  have hnone : s'.log = s.log → s.sends c hasInit a = [] := fun hlog =>
    sends_eq hstep (hlog.trans (append_nil _).symm)
  have hrunning : ∀ {t g}, s.goroutines[t]? = some g → s.view.running = true :=
    fun ht => h.running (mem_of_getElem? ht)
  cases taken_of_step hstep with
  | launch hidle hopen =>
    rw [hnone rfl]
    refine Rounds.Step.launch hidle ?_
    have hall : (((s.retries.m.map fun q => (⟨q.1, q.2, begin q.2⟩ : Goroutine)).map
        Goroutine.task).flatMap (·.all)) = s.retries.all.map (·.1) := by
      rw [List.map_map, List.flatMap_map, Connretry.all, Buckets.content, List.map_flatMap]
      exact flatMap_congr fun q hq => (Retry.map_fst_all (h.aligned q hq)).symm
    rw [hall]
    by_cases hmulti : ∃ cmd ∈ multi, isMulti cmd = true
    · exact hcalm hmulti
    · have hinv := h.single fun cmd hcmd => Bool.eq_false_iff.mpr fun htrue =>
        hmulti ⟨cmd, hcmd, htrue⟩
      have hnodup := hinv.nodup
      rw [map_append] at hnodup
      exact (nodup_append.mp hnodup).1
  | @answer t cc start rs got re asking pc ht hlen hpc =>
    rw [sends_eq hstep rfl]
    have hpending : pending re pc ⊆ pending re (.call asking start got) := by
      rcases hpc with ⟨start', rfl⟩ | rfl
      · cases asking <;> exact Subset.refl _
      · cases asking with
        | true => exact nil_subset _
        | false => exact subset_append_right _ _
    refine Rounds.Step.act_set ht (hrunning ht) rfl rfl rfl hpending ?_ (pending_sublist re pc)
    intro i hi
    have hmem := (map_index_sublist (h.goroutines _ (mem_of_getElem? ht)) hlen).subset hi
    cases asking with
    | true => exact hmem
    | false => exact mem_append_left _ hmem
  | @finished t cc i re asking got sc ht hgot =>
    rw [hnone rfl]
    rw [declines_finished ht hgot]
    refine Rounds.Step.act_set ht (hrunning ht) rfl rfl rfl ?_ (nil_subset _) (pending_sublist re _)
    cases asking with
    | true => exact nil_subset _
    | false => exact pending_askings_subset re
  | @handled t cc i re asking got sc resp now cm addr mode closing r pc ht hgot hcm hmode hclosing hr
      hpc =>
      rw [hnone rfl]
      have hpending : (task ⟨cc, re, pc⟩).pending = if asking then [] else re.aIndexes := by
        rcases hpc with ⟨a, -, rfl⟩ | ⟨-, rfl⟩ <;> rfl
      refine Rounds.Step.act_set ht (hrunning ht) rfl rfl rfl ?_ (nil_subset _) ?_
      · rw [hpending]
        exact Subset.refl _
      · rcases declines_handle ht with hnil | ⟨ii, resp, now, cm, addr, hone, hii, -⟩
        · rw [hnil]
          exact pending_sublist re pc
        · rw [hone, hpending]
          exact index_pending_sublist hii
  | @add t cc i re asking got sc a ht =>
    rw [hnone rfl]
    exact Rounds.Step.act_set ht (hrunning ht) rfl rfl rfl (Subset.refl _) (nil_subset _)
      (pending_sublist re (.handle asking got (i + 1) sc))
  | again hrunning hopen hdone hperm hnext =>
    rw [hnone rfl]
    have hgoes := (again_iff_goesOn.mp ⟨_, _, _, hnext⟩).2
    exact Rounds.Step.leave (hcalm.resolve_right (not_not_intro hgoes))
  | returned hrunning _ hdone _ _ =>
    rw [hnone rfl]
    exact Rounds.Step.finish

/-! ### What was declined is kept -/

def Adding (g : Goroutine) (ii : Nat) : Prop :=
  ∃ asking got i sc a, g.pc = .add asking got i sc a ∧ (g.re.indexes asking)[i]? = some ii

def Kept (multi : List Completed) (s : BatchState) (ii : Nat) : Prop :=
  (∀ cmd ∈ multi, isMulti cmd = false) →
    ii ∈ s.retries.all.map (·.1) ∨ ∃ g ∈ s.goroutines, Adding g ii

theorem redirected_isSome {rd : Round} {commands : List Completed} {resps : List RedisResult}
    {cm : Completed} {resp : RedisResult} {addr : Bytes} {mode : RedirectMode}
    (hcommands : ∀ cmd ∈ commands, isMulti cmd = false) :
    ∃ a, (redirected rd commands resps i cm resp addr mode sc).2 = some a := by
  have hhit : ∀ k, Boundaries.hit isMulti commands k = false := by
    intro k
    rw [Bool.eq_false_iff]
    intro hhit
    obtain ⟨cmd, hcmd, htrue⟩ := Boundaries.hit_iff.mp hhit
    rw [hcommands cmd (mem_of_getElem? hcmd)] at htrue
    cases htrue
  have hplace : ∀ searched sc, ∃ a,
      place rd commands resps i cm resp addr mode searched sc = some a := by
    intro searched sc
    unfold place found processed
    rw [hhit]
    simp
  unfold redirected
  split
  · exact hplace true (search commands i)
  · exact hplace false sc

theorem Sound.kept_step (h : Sound multi s) (hstep : s.step c hasInit a = some s')
    (hrunning : s.running = true) (hrunning' : s'.running = true) :
    (∀ i, Kept multi s i → Kept multi s' i) ∧ ∀ i ∈ s.declines c hasInit a, Kept multi s' i := by
  -- a goroutine that is not adding anything goes on
  have hact : ∀ {t : Nat} {g g' : Goroutine} {ii : Nat}, s.goroutines[t]? = some g → ¬ Adding g ii →
      s'.goroutines = s.goroutines.set t g' → s'.retries = s.retries → Kept multi s ii →
      Kept multi s' ii := by
    intro t g g' ii ht hnot hg hr hkept hmulti
    rw [hr, hg]
    rcases hkept hmulti with hold | hadding
    · exact Or.inl hold
    · exact Or.inr ((exists_mem_set ht hadding g').resolve_left hnot)
  cases taken_of_step hstep with
  | launch hidle =>
    rw [hrunning] at hidle
    cases hidle
  | answer ht =>
    refine ⟨fun i => hact ht ?_ rfl rfl, forall_mem_nil _⟩
    rintro ⟨_, _, _, _, _, hpc, -⟩
    cases hpc
  | @finished t cc i re asking got sc ht hgot =>
    rw [declines_finished ht hgot]
    refine ⟨fun i => hact ht ?_ rfl rfl, forall_mem_nil _⟩
    rintro ⟨_, _, _, _, _, hpc, -⟩
    cases hpc
  | @handled t cc i re asking got sc resp now cm addr mode closing r pc ht hgot hcm hmode hclosing hr
      hpc =>
      constructor
      · refine fun i => hact ht ?_ rfl rfl
        rintro ⟨_, _, _, _, _, hadding, -⟩
        cases hadding
      · intro ii hii hmulti
        rcases declines_handle ht with hnil | ⟨ii', resp', now', cm', addr', hone, hindex, hgot', hcm',
          hmode', hresends⟩
        · rw [hnil] at hii
          cases hii
        · -- it is the reply at hand, and nothing else can be added for it
          rw [hone, mem_singleton] at hii
          cases some.inj (hgot.symm.trans hgot')
          cases some.inj (hcm.symm.trans hcm')
          cases Except.ok.inj (hmode.symm.trans hmode')
          have hmem := mem_of_getElem? ht
          obtain ⟨a, ha⟩ : ∃ a, r.2 = some a := by
            rw [hr, if_pos hresends]
            exact redirected_isSome fun cmd hcmd =>
              hmulti cmd (((h.single hmulti).goroutines _ hmem).mem_of_mem_cmds hcmd)
          rcases hpc with ⟨a', -, rfl⟩ | ⟨hnone, -⟩
          · rw [hii]
            exact Or.inr ⟨_, mem_set_self ht _, asking, got, i, r.1, a', rfl, hindex⟩
          · rw [ha] at hnone
            cases hnone
  | @add t cc i re asking got sc a ht =>
    refine ⟨?_, forall_mem_nil _⟩
    intro ii hkept hmulti
    have hg := (h.single hmulti).goroutines _ (mem_of_getElem? ht)
    obtain ⟨hlen, hlt, nc, mode, delay, rfl⟩ := hg.wellFormed
    have hpart : i < (re.part asking).length := by
      rw [Retry.Aligned.length_part hg.aligned, ← hlen]
      exact hlt
    have hq := getElem?_eq_getElem hpart
    have hadd := (Connretry.add_single h.keys h.aligned hq nc mode delay).2.2
    have hnew : ∀ p ∈ s.retries.all ++ [(re.part asking)[i]],
        p ∈ (s.retries.add (re.indexes asking) (re.cmds asking) (.single nc mode i delay)).all :=
      fun p hp => hadd.mem_iff.mpr hp
    rcases hkept hmulti with hold | hadding
    · obtain ⟨p, hp, rfl⟩ := mem_map.mp hold
      exact Or.inl (mem_map_of_mem (hnew p (mem_append_left _ hp)))
    · rcases exists_mem_set ht hadding ⟨cc, re, .handle asking got (i + 1) sc⟩ with
        ⟨_, _, _, _, _, hpc, hindex⟩ | hothers
      · cases hpc
        left
        have hfst : (re.part asking)[i].1 = ii :=
          some.inj ((Retry.getElem?_part hq).1.symm.trans hindex)
        rw [← hfst]
        exact mem_map_of_mem (hnew _ (mem_append_right _ (mem_singleton_self _)))
      · exact Or.inr hothers
  | again => cases hrunning'
  | returned => exact ⟨fun i hi => hi, forall_mem_nil _⟩

theorem Sound.kept_join (h : Sound multi s) (hmulti : ∀ cmd ∈ multi, isMulti cmd = false)
    {order : List (Nat × Retry)} (hjoin : s.join c order = some s') (hkept : Kept multi s ii) :
    s'.returned = false ∧ ii ∈ s'.retries.all.map (·.1) ↔
      c.GoesOn s.redirects s.retries.redirects s.retries.retryDelay := by
  have hall : (∀ g ∈ s.goroutines, g.pc = .done) → ii ∈ s.retries.all.map (·.1) := by
    intro hdone
    refine (hkept hmulti).resolve_right ?_
    rintro ⟨g, hg, asking, got, i, sc, a, hpc, -⟩
    rw [hdone g hg] at hpc
    cases hpc
  have htaken : Taken c false s (.join order) s' := taken_join hjoin
  cases htaken with
  | @again _ retries _ _ _ hopen hdone hperm hnext =>
    have hretries := c.next_again (Buckets.nodup_keys_of_perm hperm h.keys)
      (fun q hq => h.aligned q (hperm.mem_iff.mp hq)) hnext
    have hperm' : retries.all.Perm s.retries.all := hretries.2.2.trans (hperm.flatMap_right _)
    have hgoes := (again_iff_goesOn.mp ⟨_, _, _, hnext⟩).2
    refine ⟨fun _ => hgoes, fun _ => ⟨hopen, ?_⟩⟩
    exact (hperm'.map _).mem_iff.mpr (hall hdone)
  | returned _ _ hdone hperm hnext =>
    constructor
    · rintro ⟨hr, -⟩
      cases hr
    · intro hgoes
      have hm : order ≠ [] := by
        rintro rfl
        have hnil := hall hdone
        rw [Connretry.all, ← hperm.nil_eq] at hnil
        cases hnil
      obtain ⟨_, _, _, hagain⟩ :=
        (again_iff_goesOn (r := { s.retries with m := order })).mpr ⟨hm, hgoes⟩
      exact absurd hagain (hnext _ _ _)

theorem sound_start {choose : Nat → Completed → Option Nat}
    (h : Picking.Filled choose multi retries) : Sound multi (start multi retries) :=
  ⟨h.keys, h.aligned, forall_mem_nil _, fun _ => rfl, fun _ => inv_start h⟩

theorem declined_batch (hpick : p.pickMulti multi = .ok (some (retries, hasInit)))
    {steps : List BatchStep} {w : Rounds.Watched BatchState Nat}
    (hcalm : Machine.Guarded (watch (step c hasInit) (declines c hasInit) (sends c hasInit))
      (Calm c multi) { state := start multi retries } steps)
    (hrun : run (watch (step c hasInit) (declines c hasInit) (sends c hasInit))
      { state := start multi retries } steps = some w) :
    w.again = [] ∧ ((∀ cmd ∈ multi, isMulti cmd = false) → ∀ order s', w.state.join c order = some s' →
      ∀ i ∈ w.marked, (s'.returned = false ∧ i ∈ s'.retries.all.map (·.1) ↔
        c.GoesOn w.state.redirects w.state.retries.redirects w.state.retries.retryDelay)) := by
  obtain ⟨hsound, hagain, hkept⟩ := watch_inv view (Kept multi)
    (fun _ _ _ hs hstep => Sound.step hs hstep)
    (fun _ _ _ hs hg hstep => Sound.rounds_step hs hg hstep)
    (fun _ _ _ hs hstep hr hr' => Sound.kept_step hs hstep hr hr')
    (sound_start (p.pickMulti_filled hpick)) rfl hcalm hrun
  exact ⟨hagain, fun hmulti _ _ hjoin i hi => hsound.kept_join hmulti hjoin (hkept i hi)⟩

end BatchState

/-! ## `DoMultiCache` -/

namespace CacheGoroutine

def pending (re : Retrycache) : Pc → List Nat
  | .call asking _ _ => re.indexes asking ++ later re asking
  | .handle asking _ _ => later re asking
  | .done => []

theorem indexes_later_sublist (re : Retrycache) (asking : Bool) :
    (re.indexes asking ++ later re asking).Sublist re.indices := by
  cases asking with
  | true =>
    change (re.aIndexes ++ []).Sublist _
    rw [append_nil]
    exact sublist_append_right _ _
  | false => exact Sublist.refl _

theorem pending_sublist (re : Retrycache) (pc : Pc) : (pending re pc).Sublist re.indices := by
  cases pc with
  | call asking start got => exact indexes_later_sublist re asking
  | handle asking got i =>
    exact (sublist_append_right _ _).trans (indexes_later_sublist re asking)
  | done => exact nil_sublist _

def task (g : CacheGoroutine) : Rounds.Task Nat :=
  { all := g.re.indices
    pending := pending g.re g.pc
    pending_sublist := pending_sublist g.re g.pc }

theorem pending_askings_subset (re : Retrycache) : pending re (askings re) ⊆ re.aIndexes := by
  unfold askings
  split
  · exact nil_subset _
  · change re.aIndexes ++ [] ⊆ re.aIndexes
    rw [append_nil]
    exact Subset.refl _

end CacheGoroutine

namespace CacheState

open CacheGoroutine

variable (c : ClusterClient)

variable {a : CacheStep} {re : Retrycache} {got : List RedisResult}

def view (s : CacheState) : Rounds.View Nat :=
  ⟨s.goroutines.map CacheGoroutine.task, s.running, s.returned⟩

/-- The index of the command whose reply is handled, when it could be tried again but `RetryDelay`
is negative. -/
def declines (s : CacheState) : CacheStep → List Nat
  | .handle t =>
    match s.goroutines[t]? with
    | some ⟨cc, re, .handle asking got i⟩ =>
      match got[i]?, (re.cmds asking)[i]?, (re.indexes asking)[i]? with
      | some resp, some cm, some ii =>
        let rd := c.round asking s.round cc s.attempts false
        match shouldRefreshRetry (rd.now i) resp.error with
        | .ok (_, .retry) =>
          if rd.retry ∧ rd.retryDelay rd.attempts cm.cmd resp.error < 0 then [ii] else []
        | _ => []
      | _, _, _ => []
    | _ => []
  | _ => []

def sends (s : CacheState) (a : CacheStep) : List Nat :=
  match s.step c a with
  | some s' => s'.log.drop s.log.length
  | none => []

def Calm (w : Rounds.Watched CacheState Nat) : CacheStep → Prop
  | .join _ => w.marked = [] ∨
      ¬ c.GoesOn w.state.redirects w.state.retries.redirects w.state.retries.retryDelay
  | _ => True

variable {c} {s s' : CacheState} {t : Nat}

theorem sends_eq (hstep : s.step c a = some s') {sent : List Nat} (hlog : s'.log = s.log ++ sent) :
    s.sends c a = sent := by
  unfold sends
  rw [hstep]
  dsimp only
  rw [hlog, drop_left]

variable (ht : s.goroutines[t]? = some ⟨cc, re, .handle asking got i⟩)

include ht

theorem declines_handle :
    s.declines c (.handle t) = [] ∨ ∃ ii resp addr,
      s.declines c (.handle t) = [ii] ∧ (re.indexes asking)[i]? = some ii ∧ got[i]? = some resp ∧
      shouldRefreshRetry ((c.round asking s.round cc s.attempts false).now i) resp.error =
        .ok (addr, .retry) ∧ c.retry = true := by
  dsimp only [declines]
  rw [ht]
  dsimp only
  split
  · rename_i resp cm ii hgot hcm hii
    split
    · rename_i addr hmode
      split
      · rename_i hdelay
        exact Or.inr ⟨ii, resp, addr, rfl, hii, hgot, hmode, hdelay.1⟩
      · exact Or.inl rfl
    · exact Or.inl rfl
  · exact Or.inl rfl

theorem declines_finished (hgot : got[i]? = none) : s.declines c (.handle t) = [] := by
  rcases declines_handle ht with hnil | ⟨ii, resp, addr, -, -, hsome, -⟩
  · exact hnil
  · rw [hgot] at hsome
    cases hsome

omit ht

theorem nextCache_isSome_iff {k : Nat} {r : Connretrycache} :
    (c.nextCache k r attempts redirects).isSome = true ↔
      r.m ≠ [] ∧ c.GoesOn redirects r.redirects r.retryDelay := by
  unfold ClusterClient.nextCache ClusterClient.GoesOn
  grind [List.isEmpty_iff]

theorem Inv.rounds_step (h : Inv s) (hcalm : Calm c ⟨s, marked, again⟩ a)
    (hstep : s.step c a = some s') :
    Rounds.Step marked s.view s'.view (s.declines c a) (s.sends c a) := by
  have hnone : s'.log = s.log → s.sends c a = [] := fun hlog =>
    sends_eq hstep (hlog.trans (append_nil _).symm)
  have hrunning : ∀ {t g}, s.goroutines[t]? = some g → s.view.running = true :=
    fun ht => h.running (mem_of_getElem? ht)
  cases taken_of_step hstep with
  | launch hidle hopen =>
    rw [hnone rfl]
    refine Rounds.Step.launch hidle ?_
    have hall : (((s.retries.m.map fun q => (⟨q.1, q.2, begin q.2⟩ : CacheGoroutine)).map
        CacheGoroutine.task).flatMap (·.all)) = s.retries.indices := by
      rw [List.map_map, List.flatMap_map]
      rfl
    rw [hall]
    exact (nodup_append.mp h.nodup).1
  | @answer t cc start rs got again re asking pc ht hpc =>
    rw [sends_eq hstep rfl]
    have hpending : pending re pc ⊆ pending re (.call asking start got) := by
      rcases hpc with ⟨start', rfl⟩ | rfl
      · exact Subset.refl _
      · exact subset_append_right _ _
    refine Rounds.Step.act_set ht (hrunning ht) rfl rfl rfl hpending ?_ (pending_sublist re pc)
    intro i hi
    exact mem_append_left _ (mem_of_mem_drop hi)
  | @finished t cc i re asking got ht hgot =>
    rw [hnone rfl, declines_finished ht hgot]
    refine Rounds.Step.act_set ht (hrunning ht) rfl rfl rfl ?_ (nil_subset _) (pending_sublist re _)
    cases asking with
    | true => exact nil_subset _
    | false => exact pending_askings_subset re
  | @handled t cc i re asking got resp set retries ht hgot hturn =>
    rw [hnone rfl]
    refine Rounds.Step.act_set ht (hrunning ht) rfl rfl rfl (Subset.refl _) (nil_subset _) ?_
    rcases declines_handle ht with hnil | ⟨ii, resp, addr, hone, hii, -⟩
    · rw [hnil]
      exact pending_sublist re (.handle asking got (i + 1))
    · rw [hone]
      have hmem : [ii].Sublist (re.indexes asking) :=
        singleton_sublist.mpr (mem_of_getElem? hii)
      exact (hmem.append (Sublist.refl _)).trans (indexes_later_sublist re asking)
  | again _ hdone hperm hnext =>
    rw [hnone rfl]
    have hgoes := (nextCache_isSome_iff.mp (isSome_iff_exists.mpr ⟨_, hnext⟩)).2
    exact Rounds.Step.leave (hcalm.resolve_right (not_not_intro hgoes))
  | returned hdone _ _ =>
    rw [hnone rfl]
    exact Rounds.Step.finish

theorem Inv.kept_step (h : Inv s) (hstep : s.step c a = some s') (hrunning : s.running = true)
    (hrunning' : s'.running = true) :
    (∀ i, i ∈ s.retries.indices → i ∈ s'.retries.indices) ∧
      ∀ i ∈ s.declines c a, i ∈ s'.retries.indices := by
  cases taken_of_step hstep with
  | launch hidle =>
    rw [hrunning] at hidle
    cases hidle
  | answer => exact ⟨fun i hi => hi, forall_mem_nil _⟩
  | finished ht hgot =>
    rw [declines_finished ht hgot]
    exact ⟨fun i hi => hi, forall_mem_nil _⟩
  | @handled t cc i re asking got resp set retries ht hgot hturn =>
    obtain ⟨ii, cm, addr, mode, hii, -, hmode, hadded⟩ := resultcacheLoop_one hturn
    have hmono : ∀ j, j ∈ s.retries.indices → j ∈ retries.indices := by
      intro j hj
      rcases hadded with ⟨rfl, -⟩ | ⟨nc, delay, rfl⟩
      · exact hj
      · exact (h.good.indices_add nc mode ii cm delay).mem_iff.mpr (mem_append_left _ hj)
    refine ⟨hmono, ?_⟩
    intro j hj
    rcases declines_handle ht with hnil | ⟨ii', resp', addr', hone, hii', hgot', hmode', hretry⟩
    · rw [hnil] at hj
      cases hj
    · rw [hone, mem_singleton] at hj
      cases some.inj (hii.symm.trans hii')
      cases some.inj (hgot.symm.trans hgot')
      cases Except.ok.inj (hmode.symm.trans hmode')
      rcases hadded with ⟨-, hskip⟩ | ⟨nc, delay, rfl⟩
      · have hoff := hskip rfl
        change c.retry = false at hoff
        rw [hretry] at hoff
        cases hoff
      · rw [hj]
        exact (h.good.indices_add nc .retry ii cm delay).mem_iff.mpr
          (mem_append_right _ (mem_singleton_self _))
  | again => cases hrunning'
  | returned => exact ⟨fun i hi => hi, forall_mem_nil _⟩

theorem Inv.kept_join (h : Inv s) {order : List (Nat × Retrycache)}
    (hjoin : s.join c order = some s') (hkept : ii ∈ s.retries.indices) :
    s'.returned = false ∧ ii ∈ s'.retries.indices ↔
      c.GoesOn s.redirects s.retries.redirects s.retries.retryDelay := by
  have htaken : Taken c s (.join order) s' := taken_join hjoin
  cases htaken with
  | @again _ retries _ _ hopen hdone hperm hnext =>
    have hgood : ({ s.retries with m := order } : Connretrycache).Good :=
      ⟨Buckets.nodup_keys_of_perm hperm h.good.keys,
        fun q hq => h.good.aligned q (hperm.mem_iff.mp hq)⟩
    have hperm' : retries.indices.Perm s.retries.indices :=
      (c.nextCache_again hgood hnext).2.trans (hperm.flatMap_right _)
    have hgoes := (nextCache_isSome_iff.mp (isSome_iff_exists.mpr ⟨_, hnext⟩)).2
    exact ⟨fun _ => hgoes, fun _ => ⟨hopen, hperm'.mem_iff.mpr hkept⟩⟩
  | returned hdone hperm hnext =>
    constructor
    · rintro ⟨hr, -⟩
      cases hr
    · intro hgoes
      have hm : order ≠ [] := by
        rintro rfl
        rw [Connretrycache.indices, ← hperm.nil_eq] at hkept
        cases hkept
      rw [← not_isSome_iff_eq_none, nextCache_isSome_iff] at hnext
      exact absurd ⟨hm, hgoes⟩ hnext

theorem declined_cache {multi : List CacheableTTL} {retries : Connretrycache}
    (hpick : p.pickMultiCache multi = .ok (some retries)) {steps : List CacheStep}
    {w : Rounds.Watched CacheState Nat}
    (hcalm : Machine.Guarded (watch (step c) (declines c) (sends c)) (Calm c)
      { state := start multi retries } steps)
    (hrun : run (watch (step c) (declines c) (sends c))
      { state := start multi retries } steps = some w) :
    w.again = [] ∧ ∀ order s', w.state.join c order = some s' → ∀ i ∈ w.marked,
      (s'.returned = false ∧ i ∈ s'.retries.indices ↔
        c.GoesOn w.state.redirects w.state.retries.redirects w.state.retries.retryDelay) := by
  obtain ⟨hinv, hagain, hkept⟩ := watch_inv view (fun s i => i ∈ s.retries.indices)
    (fun _ _ _ hs hstep => Inv.step hs hstep)
    (fun _ _ _ hs hg hstep => Inv.rounds_step hs hg hstep)
    (fun _ _ _ hs hstep hr hr' => Inv.kept_step hs hstep hr hr')
    (inv_start hpick) rfl hcalm hrun
  exact ⟨hagain, fun _ _ hjoin i hi => hinv.kept_join hjoin (hkept i hi)⟩

end CacheState

/-- A command whose `RetryDelay` is negative is not sent again, in both kinds of batches, as long as
no round with such a command goes on; and when one does go on, its declined commands go with it. -/
theorem declined_not_sent_again (c : ClusterClient) (p : Picking) :
    (∀ multi retries hasInit steps w, p.pickMulti multi = .ok (some (retries, hasInit)) →
      Machine.Guarded (watch (BatchState.step c hasInit) (BatchState.declines c hasInit)
        (BatchState.sends c hasInit)) (BatchState.Calm c multi)
        { state := BatchState.start multi retries } steps →
      run (watch (BatchState.step c hasInit) (BatchState.declines c hasInit)
        (BatchState.sends c hasInit)) { state := BatchState.start multi retries } steps = some w →
      w.again = [] ∧ ((∀ cmd ∈ multi, isMulti cmd = false) →
        ∀ order s', w.state.join c order = some s' → ∀ i ∈ w.marked,
          (s'.returned = false ∧ i ∈ s'.retries.all.map (·.1) ↔
            c.GoesOn w.state.redirects w.state.retries.redirects w.state.retries.retryDelay))) ∧
    ∀ multi retries steps w, p.pickMultiCache multi = .ok (some retries) →
      Machine.Guarded (watch (CacheState.step c) (CacheState.declines c) (CacheState.sends c))
        (CacheState.Calm c) { state := CacheState.start multi retries } steps →
      run (watch (CacheState.step c) (CacheState.declines c) (CacheState.sends c))
        { state := CacheState.start multi retries } steps = some w →
      w.again = [] ∧ ∀ order s', w.state.join c order = some s' → ∀ i ∈ w.marked,
        (s'.returned = false ∧ i ∈ s'.retries.indices ↔
          c.GoesOn w.state.redirects w.state.retries.redirects w.state.retries.retryDelay) :=
  ⟨fun _ _ _ _ _ hpick hcalm hrun => BatchState.declined_batch hpick hcalm hrun,
    fun _ _ _ _ hpick hcalm hrun => CacheState.declined_cache hpick hcalm hrun⟩

def reluctant : ClusterClient := { ClusterClient.relocated with retryDelay := fun _ _ _ _ _ _ => -1 }

def readAt (slot : UInt16) : Completed :=
  { newCompleted [lit "GET", lit "k"] with cf := readonly, ks := slot }

theorem declined_not_sent_again_loading :
    ∃ retries w, BatchState.evenOdd.pickMulti [readAt 0] = .ok (some (retries, false)) ∧
      run (watch (BatchState.step reluctant false) (BatchState.declines reluctant false)
        (BatchState.sends reluctant false)) { state := BatchState.start [readAt 0] retries }
        [.launch, .answer 0 [(replyOf typeSimpleErr "LOADING", {})], .handle 0, .add 0, .handle 0,
          .join [(0, { cIndexes := [0], commands := [readAt 0] })]] = some w ∧
      w.marked = [0] ∧ w.again = [] := by
  have hpick : BatchState.evenOdd.pickMulti [readAt 0] = .ok (some
      ({ m := [(0, { cIndexes := [0], commands := [readAt 0] })] }, false)) := by
    rfl
  refine ⟨_, exists_and_left.mpr ⟨hpick, ?_⟩⟩
  refine (exists_run _ (P := fun w => w.marked = [0]) _ _ ?_).imp
    fun w ⟨hrun, hw⟩ => ⟨hrun, hw, ?_⟩
  · decide +kernel
  · exact ((declined_not_sent_again reluctant BatchState.evenOdd).1 _ _ _ _ w hpick (by decide +kernel)
      hrun).1

def loadingAndMoved : List BatchStep :=
  [.launch, .answer 0 [(replyOf typeSimpleErr "MOVED 1 b:1", {})],
    .answer 1 [(replyOf typeSimpleErr "LOADING", {})], .handle 1, .add 1, .handle 0, .add 0,
    .handle 0, .handle 1,
    .join [(1, { cIndexes := [1], commands := [readAt 1] }),
      (0, { cIndexes := [0], commands := [readAt 0] })],
    .launch, .answer 0 [(replyOf typeBlobString "one", {})],
    .answer 1 [(replyOf typeBlobString "zero", {})]]

theorem declined_sent_again :
    ∃ retries w, BatchState.evenOdd.pickMulti [readAt 0, readAt 1] = .ok (some (retries, false)) ∧
      run (watch (BatchState.step reluctant false) (BatchState.declines reluctant false)
        (BatchState.sends reluctant false))
        { state := BatchState.start [readAt 0, readAt 1] retries } loadingAndMoved = some w ∧
      w.marked = [0] ∧ w.again = [0] := by
  refine ⟨_, exists_and_left.mpr ⟨rfl, ?_⟩⟩
  exact exists_run _ _ _ (by decide +kernel)

end Rueidis
