import Rueidis.Cluster.Held
import Rueidis.Library.Threads

/-!
# Every command gets its own result

An index of the batch is in one place only, a bucket of the retries or a goroutine, and always with its
own command.  So nobody else sends the command or sets its result while a goroutine has it, and the
result that is set last is that of the reply to what was sent last.
-/

namespace Rueidis

open List Buckets History Threads Machine

/-! ## Retries -/

namespace Retry

variable {nr : Retry}

theorem Aligned.append (h : nr.Aligned) (mode : RedirectMode) {indexes : List Nat}
    {cms : List Completed} (hlen : indexes.length = cms.length) :
    (nr.append mode indexes cms).Aligned := by
  unfold Retry.append
  split
  · refine ⟨h.commands, ?_⟩
    rw [length_append, length_append, h.askings, hlen]
  · refine ⟨?_, h.askings⟩
    rw [length_append, length_append, h.commands, hlen]

theorem all_append_one (h : nr.Aligned) (mode : RedirectMode) (p : Nat × Completed) :
    (nr.append mode [p.1] [p.2]).all.Perm (nr.all ++ [p]) := by
  unfold Retry.append
  split
  · change (nr.part false ++ (nr.aIndexes ++ [p.1]).zip (nr.cAskings ++ [p.2])).Perm _
    rw [zip_append h.askings, ← append_assoc]
    exact Perm.refl _
  · change ((nr.push p).pairs ++ nr.part true).Perm (nr.pairs ++ nr.part true ++ [p])
    rw [laws.items_push nr p h, append_assoc, append_assoc]
    exact perm_append_comm.append_left _

end Retry

variable {attempts redirects : Nat}

theorem Connretry.add_single {r : Connretry} (hkeys : (keys r.m).Nodup)
    (hm : ∀ q ∈ r.m, q.2.Aligned) {re : Retry} {asking : Bool} {i : Nat} {p : Nat × Completed}
    (hp : (re.part asking)[i]? = some p) (nc : Nat) (mode : RedirectMode) (delay : Int) :
    let r' := r.add (re.indexes asking) (re.cmds asking) (.single nc mode i delay)
    (keys r'.m).Nodup ∧ (∀ q ∈ r'.m, q.2.Aligned) ∧ r'.all.Perm (r.all ++ [p]) := by
  have hput : (r.add (re.indexes asking) (re.cmds asking) (.single nc mode i delay)).m =
      put r.m nc ((r.bucket nc).append mode [p.1] [p.2]) := by
    obtain ⟨hindex, hcmd⟩ := Retry.getElem?_part hp
    change put r.m nc ((r.bucket nc).append mode [(re.indexes asking).getD i 0]
      [(re.cmds asking).getD i {}]) = _
    rw [getD_eq_getElem?_getD, hindex, getD_eq_getElem?_getD, hcmd]
    rfl
  have hbucket : (r.bucket nc).Aligned := good_getD hm Retry.laws.good_empty nc
  dsimp only
  rw [Connretry.all, hput]
  refine ⟨nodup_put hkeys _ _, ?_, ?_⟩
  · intro q hq
    rcases mem_put hq with rfl | hold
    · exact hbucket.append mode rfl
    · exact hm q hold
  · apply content_put Retry.all hkeys
    refine (Retry.all_append_one hbucket mode p).trans ?_
    unfold Connretry.bucket
    cases r.m.lookup nc with
    | none => exact Perm.refl _
    | some b => exact Perm.refl _

namespace ClusterClient

variable {c : ClusterClient} {k : Nat} {retries : Connretry}

theorem all_rebucketRetries (hkeys : (keys retries.m).Nodup)
    (hm : ∀ q ∈ retries.m, q.2.Aligned) : (c.rebucketRetries k retries).all.Perm retries.all := by
  have hconserved := c.rebucketRetries_conserved k hkeys hm
  have hask : (content (fun nr => nr.part true) (c.rebucketRetries k retries).m).Perm
      (content (fun nr => nr.part true) retries.m) :=
    hconserved.content_asks (f := fun p => p.1.zip p.2) hkeys rfl
  exact ((content_append _ _ _).trans (hconserved.content.append hask)).trans
    (content_append _ _ _).symm

theorem next_again (c : ClusterClient) (hkeys : (keys retries.m).Nodup)
    (hm : ∀ q ∈ retries.m, q.2.Aligned) {attempts' redirects' : Nat} {retries' : Connretry}
    (h : c.next k retries attempts redirects = .again retries' attempts' redirects') :
    (keys retries'.m).Nodup ∧ (∀ q ∈ retries'.m, q.2.Aligned) ∧
      retries'.all.Perm retries.all := by
  unfold ClusterClient.next at h
  split at h
  · cases h
  · split at h
    · split at h
      · cases h
      · cases h
        exact ⟨hkeys, hm, Perm.refl _⟩
    · split at h
      · cases h
        have hconserved := c.rebucketRetries_conserved k hkeys hm
        exact ⟨hconserved.keys, hconserved.good, all_rebucketRetries hkeys hm⟩
      · cases h

end ClusterClient

/-! ## The batch -/

namespace BatchState

open Goroutine

variable {multi : List Completed} {s : BatchState} {g : Goroutine}

def Settled (log : List Sent) (results : List RedisResult) (i : Nat) (cmd : Completed) : Prop :=
  ∃ e, latest Sent.index log i = some e ∧ e.cmd = cmd ∧ results[i]? = some e.outcome

/-- An index is in one bucket or in the hands of one goroutine, with its own command; and its result
is still to be set, or settled. -/
structure Inv (multi : List Completed) (s : BatchState) : Prop where
  keys : (keys s.retries.m).Nodup
  aligned : ∀ q ∈ s.retries.m, q.2.Aligned
  owned : ∀ q ∈ s.retries.all, multi[q.1]? = some q.2
  nodup : ((s.retries.all ++ s.goroutines.flatMap fun g => held g.re g.pc).map (·.1)).Nodup
  goroutines : ∀ g ∈ s.goroutines, Goroutine.Inv multi s.log g
  length : s.results.length = multi.length
  sent : ∀ e ∈ s.log, multi[e.index]? = some e.cmd
  idle : s.running = false → s.goroutines = []
  returned : s.returned = true → s.running = true ∧ ∀ g ∈ s.goroutines, g.pc = .done
  settled : ∀ i cmd, multi[i]? = some cmd →
    (∃ g ∈ s.goroutines, i ∈ (awaited g.re g.pc).map (·.1)) ∨ Settled s.log s.results i cmd ∨
      s.running = false ∧ i ∈ s.retries.all.map (·.1)

/-! ### One goroutine -/

/-- What a step of the goroutine `g` does: it only sends and adds what it has, and only sets results
that are still to be set. -/
structure Acts (multi : List Completed) (s : BatchState) (g g' : Goroutine) (retries : Connretry)
    (results : List RedisResult) (es : List Sent) : Prop where
  keys : (keys retries.m).Nodup
  aligned : ∀ q ∈ retries.m, q.2.Aligned
  held : (retries.all ++ held g'.re g'.pc).Subperm (s.retries.all ++ held g.re g.pc)
  inv : Goroutine.Inv multi (s.log ++ es) g'
  sent : ∀ e ∈ es, multi[e.index]? = some e.cmd
  mine : ∀ i ∈ es.map Sent.index, i ∈ (Goroutine.held g.re g.pc).map (·.1) ∧
    i ∈ (awaited g'.re g'.pc).map (·.1)
  length : results.length = s.results.length
  others : ∀ i, i ∉ (awaited g.re g.pc).map (·.1) → results[i]? = s.results[i]?
  settled : ∀ i cmd, multi[i]? = some cmd → i ∈ (awaited g.re g.pc).map (·.1) →
    i ∈ (awaited g'.re g'.pc).map (·.1) ∨ Settled (s.log ++ es) results i cmd

variable {retries : Connretry}

theorem Inv.act (h : Inv multi s) {t : Nat} (ht : s.goroutines[t]? = some g) (hpc : g.pc ≠ .done)
    {g' : Goroutine} {results : List RedisResult} {es : List Sent}
    (hacts : Acts multi s g g' retries results es) :
    Inv multi { s with
      retries := retries
      results := results
      goroutines := s.goroutines.set t g'
      log := s.log ++ es } := by
  have hmem := mem_of_getElem? ht
  have hrunning : s.running = true := by
    cases hr : s.running with
    | true => rfl
    | false =>
      rw [h.idle hr] at hmem
      cases hmem
  obtain ⟨pre, post, hsplit, hset⟩ := split ht
  have hnodup := h.nodup
  rw [map_append, map_flatMap] at hnodup
  -- the others have nothing of what the goroutine has
  have hothers : ∀ x ∈ pre ++ post, ∀ q ∈ Goroutine.held x.re x.pc,
      q.1 ∉ (Goroutine.held g.re g.pc).map (·.1) := by
    intro x hx q hq
    rw [hsplit] at hnodup
    exact notMem_of_nodup hnodup hx (mem_map_of_mem hq)
  have hold : ∀ x ∈ pre ++ post, x ∈ s.goroutines := by
    intro x hx
    rw [hsplit]
    exact (mem_append.mp hx).elim (mem_append_left _)
      fun hp => mem_append_right _ (mem_cons_of_mem _ hp)
  constructor
  · exact hacts.keys
  · exact hacts.aligned
  · intro q hq
    rcases mem_append.mp (hacts.held.subset (mem_append_left _ hq)) with hkept | hheld
    · exact h.owned q hkept
    · exact (h.goroutines g hmem).owned q (held_subset_all g.re g.pc hheld)
  · rw [map_append, map_flatMap]
    refine nodup_set ht ?_ hnodup
    rw [← map_append, ← map_append]
    obtain ⟨l, hperm, hsub⟩ := hacts.held
    exact ⟨l.map (·.1), hperm.map _, hsub.map _⟩
  · intro x hx
    rw [hset, perm_middle.mem_iff] at hx
    rcases mem_cons.mp hx with rfl | hrest
    · exact hacts.inv
    · apply (h.goroutines x (hold x hrest)).append
      intro q hq hes
      exact hothers x hrest q ((awaited_sublist_held x.re x.pc).subset hq) (hacts.mine _ hes).1
  · exact hacts.length.trans h.length
  · intro e he
    rcases mem_append.mp he with hlog | hnew
    · exact h.sent e hlog
    · exact hacts.sent e hnew
  · intro hr
    rw [hrunning] at hr
    cases hr
  · intro hreturned
    exact absurd ((h.returned hreturned).2 g hmem) hpc
  · intro i cmd hcmd
    have hmine : i ∈ (awaited g'.re g'.pc).map (·.1) →
        ∃ x ∈ s.goroutines.set t g', i ∈ (awaited x.re x.pc).map (·.1) :=
      fun hi => ⟨g', mem_set_self ht g', hi⟩
    by_cases hi : i ∈ (awaited g.re g.pc).map (·.1)
    · rcases hacts.settled i cmd hcmd hi with hstill | hset
      · exact Or.inl (hmine hstill)
      · exact Or.inr (Or.inl hset)
    · rcases h.settled i cmd hcmd with ⟨x, hx, hxi⟩ | ⟨e, he, hcmde, hres⟩ | ⟨hr, -⟩
      · refine Or.inl ⟨x, ?_, hxi⟩
        rw [hset, perm_middle.mem_iff]
        rw [hsplit, perm_middle.mem_iff] at hx
        rcases mem_cons.mp hx with rfl | hrest
        · exact absurd hxi hi
        · exact mem_cons_of_mem _ hrest
      · by_cases hes : i ∈ es.map Sent.index
        · exact Or.inl (hmine (hacts.mine i hes).2)
        · refine Or.inr (Or.inl ⟨e, ?_, hcmde, ?_⟩)
          · rw [latest_append_of_notMem hes]
            exact he
          · rw [hacts.others i hi]
            exact hres
      · rw [hrunning] at hr
        cases hr

section Steps

variable {s s' : BatchState} {c : ClusterClient} {hasInit : Bool} {t cc i : Nat} {re : Retry}
  {asking : Bool} {got rs : List Heard}

variable {start : Nat} {mode : RedirectMode}

theorem Inv.nodup_held (h : Inv multi s) (hg : g ∈ s.goroutines) :
    ((held g.re g.pc).map (·.1)).Nodup := by
  have hnodup := h.nodup
  rw [map_append] at hnodup
  refine (nodup_append.mp hnodup).2.1.sublist (Sublist.map _ ?_)
  exact (infix_flatMap hg fun g => held g.re g.pc).sublist

/-! #### Answers -/

variable {pc : Pc} {resp : RedisResult} {now : Moment} {closing : Bool} {sc : Scan}

theorem acts_answer (h : Inv multi s)
    (hmem : (⟨cc, re, .call asking start got⟩ : Goroutine) ∈ s.goroutines)
    (hrs : rs.length = ((frame asking (re.cmds asking)).drop start).length)
    (hinv : Goroutine.Inv multi (s.log ++
      (marked ((frame asking (re.cmds asking)).drop start) rs).map (sentBy re asking)) ⟨cc, re, pc⟩)
    (hheld : held re pc = re.part asking ++ later re asking)
    (hawaited : awaited re pc = held re pc) :
    Acts multi s ⟨cc, re, .call asking start got⟩ ⟨cc, re, pc⟩ s.retries s.results
      ((marked ((frame asking (re.cmds asking)).drop start) rs).map (sentBy re asking)) := by
  have hg := h.goroutines _ hmem
  constructor
  · exact h.keys
  · exact h.aligned
  · change (s.retries.all ++ held re pc).Subperm (s.retries.all ++ (re.part asking ++ later re asking))
    rw [hheld]
  · exact hinv
  · exact sent_owned hg hrs
  · intro i hi
    have hpart : i ∈ (re.part asking ++ later re asking).map (·.1) := by
      rw [map_append, hg.aligned.map_fst_part]
      exact mem_append_left _ ((map_index_sublist hg.aligned hrs).subset hi)
    rw [hawaited, hheld]
    exact ⟨hpart, hpart⟩
  · rfl
  · intro i _
    rfl
  · intro i cmd _ hi
    left
    rw [hawaited, hheld]
    exact hi

theorem Inv.answer (h : Inv multi s) (ht : s.goroutines[t]? = some ⟨cc, re, .call asking start got⟩)
    (hlen : rs.length = ((frame asking (re.cmds asking)).drop start).length)
    (hpc : (∃ start', pc = .call asking start' (got.take start ++ rs)) ∨
      pc = .handle asking
        ((marked (frame asking (re.cmds asking)) (got.take start ++ rs)).map (·.2)) 0 {}) :
    Inv multi { s with
      goroutines := s.goroutines.set t ⟨cc, re, pc⟩
      log := s.log ++ (marked ((frame asking (re.cmds asking)).drop start) rs).map
        (sentBy re asking) } := by
  have hmem := mem_of_getElem? ht
  have hg := h.goroutines _ hmem
  have hnodup : (re.indexes asking).Nodup := by
    have hheld := h.nodup_held hmem
    rw [← hg.aligned.map_fst_part]
    exact hheld.sublist ((sublist_append_left _ _).map _)
  obtain ⟨hcall, hhandle⟩ := Goroutine.Inv.answer hg hlen hnodup rfl
  apply h.act ht (by simp)
  rcases hpc with ⟨start', rfl⟩ | rfl
  · exact acts_answer h hmem hlen (hcall start') rfl rfl
  · exact acts_answer h hmem hlen hhandle rfl rfl

/-! #### Results -/

theorem Sent.outcome_eq {q : Nat × Completed} (h : isClosingRedirect now resp = .ok closing) :
    (⟨q.1, q.2, resp, now⟩ : Sent).outcome =
      if closing then newErrorResult (some .closing) else resp := by
  unfold Sent.outcome
  rw [h]
  cases closing <;> rfl

theorem acts_handle (h : Inv multi s)
    (hmem : (⟨cc, re, .handle asking got i sc⟩ : Goroutine) ∈ s.goroutines)
    (hgot : got[i]? = some (resp, now)) (hclosing : isClosingRedirect now resp = .ok closing)
    (hinv : Goroutine.Inv multi s.log ⟨cc, re, pc⟩)
    (hheld : (held re pc).Sublist (held re (.handle asking got i sc)))
    (hawaited : awaited re pc = (re.part asking).drop (i + 1) ++ later re asking) :
    Acts multi s ⟨cc, re, .handle asking got i sc⟩ ⟨cc, re, pc⟩ s.retries
      (s.results.set ((re.indexes asking).getD i 0)
        (if closing then newErrorResult (some .closing) else resp)) [] := by
  obtain ⟨q, hq, hown, hlatest⟩ := (h.goroutines _ hmem).current hgot
  have hindex : (re.indexes asking).getD i 0 = q.1 := by
    rw [List.getD_eq_getElem?_getD, (Retry.getElem?_part hq).1]
    rfl
  have hcons : (re.part asking).drop i = q :: (re.part asking).drop (i + 1) := by
    obtain ⟨hlt, rfl⟩ := List.getElem?_eq_some_iff.mp hq
    exact drop_eq_getElem_cons hlt
  have hawaiting : awaited re (.handle asking got i sc) =
      q :: ((re.part asking).drop (i + 1) ++ later re asking) := by
    change (re.part asking).drop i ++ later re asking = _
    rw [hcons, cons_append]
  rw [hindex]
  constructor
  · exact h.keys
  · exact h.aligned
  · exact (Sublist.append_left hheld _).subperm
  · rw [append_nil]
    exact hinv
  · exact forall_mem_nil _
  · exact forall_mem_nil _
  · exact length_set
  · intro j hj
    have hne : q.1 ≠ j := by
      rintro rfl
      apply hj
      rw [hawaiting]
      exact mem_cons_self
    exact getElem?_set_ne hne
  · intro j cmd hcmd hj
    rw [hawaiting, map_cons, mem_cons] at hj
    rw [append_nil]
    rcases hj with rfl | hrest
    · right
      rw [hown] at hcmd
      refine ⟨_, hlatest, Option.some.inj hcmd, ?_⟩
      rw [Sent.outcome_eq hclosing, getElem?_set_self]
      rw [h.length]
      exact (List.getElem?_eq_some_iff.mp hown).1
    · left
      rw [hawaited]
      exact hrest

theorem acts_finished (h : Inv multi s)
    (hmem : (⟨cc, re, .handle asking got i sc⟩ : Goroutine) ∈ s.goroutines) (hgot : got[i]? = none) :
    Acts multi s ⟨cc, re, .handle asking got i sc⟩ ⟨cc, re, if asking then .done else askings re⟩
      s.retries s.results [] := by
  have hg := h.goroutines _ hmem
  have hheld := held_finished hg.aligned hg.wellFormed hgot
  have hawaited : awaited re (if asking then .done else askings re) =
      held re (if asking then .done else askings re) := by
    cases asking with
    | true => rfl
    | false => exact awaited_askings re
  constructor
  · exact h.keys
  · exact h.aligned
  · rw [hheld]
  · rw [append_nil]
    exact inv_finished hg
  · exact forall_mem_nil _
  · exact forall_mem_nil _
  · rfl
  · intro j _
    rfl
  · intro j cmd _ hj
    left
    rw [hawaited, hheld]
    exact hj

theorem Inv.finished (h : Inv multi s)
    (ht : s.goroutines[t]? = some ⟨cc, re, .handle asking got i sc⟩) (hgot : got[i]? = none) :
    Inv multi { s with
      goroutines := s.goroutines.set t ⟨cc, re, if asking then .done else askings re⟩ } := by
  have hinv := h.act ht (by simp) (acts_finished h (mem_of_getElem? ht) hgot)
  rw [append_nil] at hinv
  exact hinv

theorem Inv.handled (hmulti : ∀ cmd ∈ multi, isMulti cmd = false) (h : Inv multi s) {rd : Round}
    {cm : Completed} {addr : Bytes} {r : Scan × Option Added}
    (ht : s.goroutines[t]? = some ⟨cc, re, .handle asking got i sc⟩)
    (hgot : got[i]? = some (resp, now)) (hclosing : isClosingRedirect now resp = .ok closing)
    (hr : r = if resends rd cm mode
      then redirected rd (re.cmds asking) (got.map (·.1)) i cm resp addr mode sc else (sc, none))
    (hpc : (∃ a, r.2 = some a ∧ pc = .add asking got i r.1 a) ∨
      r.2 = none ∧ pc = .handle asking got (i + 1) r.1) :
    Inv multi { s with
      results := s.results.set ((re.indexes asking).getD i 0)
        (if closing then newErrorResult (some .closing) else resp)
      goroutines := s.goroutines.set t ⟨cc, re, pc⟩ } := by
  have hmem := List.mem_of_getElem? ht
  have hg := h.goroutines _ hmem
  have hi := (List.getElem?_eq_some_iff.mp hgot).1
  have hacts : Acts multi s ⟨cc, re, .handle asking got i sc⟩ ⟨cc, re, pc⟩ s.retries
      (s.results.set ((re.indexes asking).getD i 0)
        (if closing then newErrorResult (some .closing) else resp)) [] := by
    rcases hpc with ⟨a, ha, rfl⟩ | ⟨-, rfl⟩
    · have hsingle : ∃ nc mode delay, a = .single nc mode i delay := by
        rw [hr] at ha
        split at ha
        · exact added_single (fun cmd hcmd => hmulti cmd (hg.mem_of_mem_cmds hcmd)) ha
        · cases ha
      exact acts_handle h hmem hgot hclosing (hg.adding hi _ hsingle) (List.Sublist.refl _) rfl
    · refine acts_handle h hmem hgot hclosing (hg.handled _) ?_ rfl
      apply List.Sublist.append_right
      rw [← List.drop_drop]
      exact List.drop_sublist 1 _
  have hact := h.act ht (by simp) hacts
  rw [List.append_nil] at hact
  exact hact

/-! #### Retries -/

variable (h : Inv multi s)

include h

theorem acts_add {nc : Nat} {delay : Int}
    (hmem : (⟨cc, re, .add asking got i sc (.single nc mode i delay)⟩ : Goroutine) ∈ s.goroutines) :
    Acts multi s ⟨cc, re, .add asking got i sc (.single nc mode i delay)⟩
      ⟨cc, re, .handle asking got (i + 1) sc⟩
      (s.retries.add (re.indexes asking) (re.cmds asking) (.single nc mode i delay)) s.results [] := by
  have hg := h.goroutines _ hmem
  have hlt : i < (re.part asking).length := by
    rw [Retry.Aligned.length_part hg.aligned, ← hg.wellFormed.1]
    exact hg.wellFormed.2.1
  have hq := getElem?_eq_getElem hlt
  have hadd := Connretry.add_single h.keys h.aligned hq nc mode delay
  constructor
  · exact hadd.1
  · exact hadd.2.1
  · refine ((hadd.2.2.append_right _).trans ?_).subperm
    change (s.retries.all ++ [_] ++ ((re.part asking).drop (i + 1) ++ later re asking)).Perm
      (s.retries.all ++ ((re.part asking).drop i ++ later re asking))
    rw [drop_eq_getElem_cons hlt, append_assoc]
    exact Perm.refl _
  · rw [append_nil]
    exact hg.added
  · exact forall_mem_nil _
  · exact forall_mem_nil _
  · rfl
  · intro j _
    rfl
  · intro j cmd _ hj
    exact Or.inl hj

theorem Inv.add {a : Added} (ht : s.goroutines[t]? = some ⟨cc, re, .add asking got i sc a⟩) :
    Inv multi { s with
      retries := s.retries.add (re.indexes asking) (re.cmds asking) a
      goroutines := s.goroutines.set t ⟨cc, re, .handle asking got (i + 1) sc⟩ } := by
  have hmem := mem_of_getElem? ht
  obtain ⟨-, -, nc, mode, delay, rfl⟩ := (h.goroutines _ hmem).wellFormed
  have hact := h.act ht (by simp) (acts_add h hmem)
  rw [append_nil] at hact
  exact hact

/-! ### Rounds -/

theorem Inv.launch (hidle : s.running = false) (hopen : s.returned = false) :
    Inv multi { s with
      goroutines := s.retries.m.map fun q => { cc := q.1, re := q.2, pc := begin q.2 }
      retries := { s.retries with m := [], retryDelay := -1 }
      running := true } := by
  have hgoroutines := h.idle hidle
  have hheld : ((s.retries.m.map fun q => (⟨q.1, q.2, begin q.2⟩ : Goroutine)).flatMap
      fun g => held g.re g.pc) = s.retries.all := by
    rw [flatMap_map]
    exact flatMap_congr fun q _ => held_begin q.2
  have hnodup := h.nodup
  rw [hgoroutines, flatMap_nil, append_nil] at hnodup
  constructor
  · exact nodup_nil
  · exact forall_mem_nil _
  · exact forall_mem_nil _
  · rw [hheld]
    exact hnodup
  · intro g hg
    obtain ⟨q, hq, rfl⟩ := mem_map.mp hg
    exact inv_begin (h.aligned q hq) fun x hx => h.owned x (subset_content hq hx)
  · exact h.length
  · exact h.sent
  · intro hr
    cases hr
  · intro hr
    rw [hopen] at hr
    cases hr
  · intro i cmd hcmd
    rcases h.settled i cmd hcmd with ⟨g, hg, -⟩ | hset | ⟨-, hi⟩
    · rw [hgoroutines] at hg
      cases hg
    · exact Or.inr (Or.inl hset)
    · -- the goroutine of the bucket has it now
      left
      obtain ⟨x, hx, rfl⟩ := mem_map.mp hi
      obtain ⟨q, hq, hxq⟩ := mem_flatMap.mp hx
      refine ⟨_, mem_map_of_mem hq, mem_map_of_mem ?_⟩
      rw [awaited_begin, held_begin]
      exact hxq

theorem Inv.settled_of_done (hrunning : s.running = true) (hdone : ∀ g ∈ s.goroutines, g.pc = .done)
    {cmd : Completed} (hcmd : multi[i]? = some cmd) : Settled s.log s.results i cmd := by
  rcases h.settled i cmd hcmd with ⟨g, hg, hi⟩ | hset | ⟨hr, -⟩
  · rw [hdone g hg] at hi
    cases hi
  · exact hset
  · rw [hrunning] at hr
    cases hr

theorem Inv.again {order : List (Nat × Retry)} (hrunning : s.running = true)
    (hopen : s.returned = false) (hdone : ∀ g ∈ s.goroutines, g.pc = .done)
    (hperm : order.Perm s.retries.m)
    (hnext : c.next s.round { s.retries with m := order } s.attempts s.redirects =
      .again retries attempts redirects) :
    Inv multi { s with
      retries := retries
      attempts := attempts
      redirects := redirects
      goroutines := []
      round := s.round + 1
      running := false } := by
  have hretries := c.next_again (nodup_keys_of_perm hperm h.keys)
    (fun q hq => h.aligned q (hperm.mem_iff.mp hq)) hnext
  have hall : retries.all.Perm s.retries.all := hretries.2.2.trans (hperm.flatMap_right _)
  constructor
  · exact hretries.1
  · exact hretries.2.1
  · exact fun q hq => h.owned q (hall.mem_iff.mp hq)
  · change ((retries.all ++ []).map _).Nodup
    rw [append_nil, (hall.map _).nodup_iff]
    have hnodup := h.nodup
    rw [map_append] at hnodup
    exact (nodup_append.mp hnodup).1
  · exact forall_mem_nil _
  · exact h.length
  · exact h.sent
  · exact fun _ => rfl
  · intro hr
    rw [hopen] at hr
    cases hr
  · exact fun i cmd hcmd => Or.inr (Or.inl (h.settled_of_done hrunning hdone hcmd))

omit h

theorem Inv.step (hmulti : ∀ cmd ∈ multi, isMulti cmd = false) (h : Inv multi s) {a : BatchStep}
    (hstep : s.step c hasInit a = some s') : Inv multi s' := by
  cases taken_of_step hstep with
  | launch hidle hopen => exact h.launch hidle hopen
  | answer ht hlen hpc => exact h.answer ht hlen hpc
  | finished ht hgot => exact h.finished ht hgot
  | handled ht hgot _ _ hclosing hr hpc => exact h.handled hmulti ht hgot hclosing hr hpc
  | add ht => exact h.add ht
  | again hrunning hopen hdone hperm hnext => exact h.again hrunning hopen hdone hperm hnext
  | returned hrunning _ hdone _ _ => exact { h with returned := fun _ => ⟨hrunning, hdone⟩ }

end Steps

theorem inv_start {choose : Nat → Completed → Option Nat} (h : Picking.Filled choose multi retries) :
    Inv multi (start multi retries) := by
  have hall : retries.all.Perm (multi.zipIdx.map fun q => (q.2, q.1)) := by
    refine (content_append Retry.pairs (fun nr => nr.part true) retries.m).trans ?_
    have hnil : content (fun nr : Retry => nr.part true) retries.m = [] := by
      apply flatMap_eq_nil_iff.mpr
      intro q hq
      change q.2.aIndexes.zip q.2.cAskings = []
      rw [(h.asks q hq).1, zip_nil_left]
    rw [hnil, append_nil]
    exact h.content
  have hindexes : (retries.all.map (·.1)).Perm (range multi.length) := by
    refine (hall.map _).trans (Perm.of_eq ?_)
    rw [map_map, range_eq_range']
    exact zipIdx_map_snd 0 multi
  constructor
  · exact h.keys
  · exact h.aligned
  · intro q hq
    obtain ⟨x, hx, rfl⟩ := mem_map.mp (hall.mem_iff.mp hq)
    exact mem_zipIdx_iff_getElem?.mp hx
  · change ((retries.all ++ []).map _).Nodup
    rw [append_nil, hindexes.nodup_iff]
    exact nodup_range
  · exact forall_mem_nil _
  · exact length_replicate
  · exact forall_mem_nil _
  · exact fun _ => rfl
  · intro hr
    cases hr
  · intro i cmd hcmd
    refine Or.inr (Or.inr ⟨rfl, hindexes.mem_iff.mpr (mem_range.mpr ?_)⟩)
    exact (List.getElem?_eq_some_iff.mp hcmd).1

/-- A batch without transactions keeps its indexes, whatever the replies and the order of the
steps. -/
theorem batch_keeps_indexes (c : ClusterClient) (p : Picking) {multi : List Completed}
    (hmulti : ∀ cmd ∈ multi, isMulti cmd = false) {retries : Connretry} {hasInit : Bool}
    (hpick : p.pickMulti multi = .ok (some (retries, hasInit))) {steps : List BatchStep}
    (hrun : run (step c hasInit) (start multi retries) steps = some s) :
    ((∀ cc, (retries.bucket cc).all = (multi.zipIdx.filter fun q =>
        p.chosen multi q.2 q.1 == some cc).map fun q => (q.2, q.1)) ∧
      ∀ q ∈ multi.zipIdx, (p.chosen multi q.2 q.1).isSome = true) ∧
    ((s.retries.all.map (·.1)).Nodup ∧ ∀ q ∈ s.retries.all, multi[q.1]? = some q.2) ∧
    (∀ e ∈ s.log, multi[e.index]? = some e.cmd) ∧
    (s.returned = true → s.results.length = multi.length ∧
      ∀ i cmd, multi[i]? = some cmd → ∃ e, latest Sent.index s.log i = some e ∧ e.cmd = cmd ∧
        s.results[i]? = some e.outcome) := by
  have hfilled := p.pickMulti_filled hpick
  have h : Inv multi s := by
    apply run_invariant _ _ (inv_start hfilled) hrun
    intro s a s' hinv hstep
    exact hinv.step hmulti hstep
  refine ⟨⟨?_, hfilled.served⟩, ⟨?_, h.owned⟩, h.sent, ?_⟩
  · intro cc
    have hnone : (retries.bucket cc).part true = [] := by
      unfold Connretry.bucket
      cases hlookup : retries.m.lookup cc with
      | none => rfl
      | some nr =>
        change nr.aIndexes.zip nr.cAskings = []
        rw [(hfilled.asks _ (mem_of_lookup hlookup)).1, zip_nil_left]
    rw [Retry.all, hnone, append_nil]
    exact hfilled.bucket cc
  · have hnodup := h.nodup
    rw [map_append] at hnodup
    exact (nodup_append.mp hnodup).1
  · intro hreturned
    obtain ⟨hrunning, hdone⟩ := h.returned hreturned
    exact ⟨h.length, fun i cmd hcmd => h.settled_of_done hrunning hdone hcmd⟩

def evenOdd : Picking where
  wslots slot := some (slot % 2)
  rslots := none
  sendToReplicas := none
  readNodeSelector := none

def getAt (slot : UInt16) : Completed := { newCompleted [lit "GET", lit "k"] with ks := slot }

def movedSteps : List BatchStep :=
  [.launch, .answer 0 [(replyOf typeBlobString "one", {})],
    .answer 1 [(replyOf typeSimpleErr "MOVED 0 b:1", {})], .handle 1, .handle 0, .add 1, .handle 0,
    .handle 1, .join [(1, { cIndexes := [0], commands := [getAt 0] })],
    .launch, .answer 0 [(replyOf typeBlobString "zero", {})], .handle 0, .handle 0, .join []]

theorem batch_keeps_indexes_moved :
    ∃ retries s, evenOdd.pickMulti [getAt 0, getAt 1] = .ok (some (retries, false)) ∧
      run (step ClusterClient.relocated false) (start [getAt 0, getAt 1] retries)
        movedSteps = some s ∧
      s.results = [replyOf typeBlobString "zero", replyOf typeBlobString "one"] ∧
      ∃ e, latest Sent.index s.log 0 = some e ∧ e.cmd = getAt 0 ∧
        s.results[0]? = some e.outcome := by
  have hpick : evenOdd.pickMulti [getAt 0, getAt 1] = .ok (some
      ({ m := [(1, { cIndexes := [1], commands := [getAt 1] }),
          (0, { cIndexes := [0], commands := [getAt 0] })] }, false)) := by
    rfl
  obtain ⟨s, hrun, hreturned, hresults⟩ := exists_run (step ClusterClient.relocated false)
    (P := fun s => s.returned = true ∧
      s.results = [replyOf typeBlobString "zero", replyOf typeBlobString "one"])
    (start [getAt 0, getAt 1]
      { m := [(1, { cIndexes := [1], commands := [getAt 1] }),
        (0, { cIndexes := [0], commands := [getAt 0] })] }) movedSteps (by decide +kernel)
  have h := batch_keeps_indexes ClusterClient.relocated evenOdd (by decide) hpick hrun
  exact ⟨_, s, hpick, hrun, hresults, (h.2.2.2 hreturned).2 0 (getAt 0) rfl⟩

end BatchState

end Rueidis
