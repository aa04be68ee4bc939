import Rueidis.Cluster.Goroutines
import Rueidis.Cluster.Transactions

/-!
# What a goroutine of a batch has

The commands that a goroutine still has to send or to handle, the replies it knows but has not handled,
and what its own steps do to them.
-/

namespace Rueidis

open List BatchState History Sent

/-! ## Indexes with their commands -/

variable {q : Nat × Completed}

namespace Retry

def part (re : Retry) (asking : Bool) : List (Nat × Completed) :=
  (re.indexes asking).zip (re.cmds asking)

def all (re : Retry) : List (Nat × Completed) := re.part false ++ re.part true

variable {re : Retry} {asking : Bool}

variable (h : re.Aligned)

include h

theorem Aligned.length_indexes (asking : Bool) :
    (re.indexes asking).length = (re.cmds asking).length := by
  cases asking
  · exact h.commands
  · exact h.askings

theorem Aligned.length_part (asking : Bool) :
    (re.part asking).length = (re.cmds asking).length := by
  rw [part, length_zip, h.length_indexes, Nat.min_self]

theorem Aligned.map_fst_part (asking : Bool) : (re.part asking).map (·.1) = re.indexes asking :=
  map_fst_zip (Nat.le_of_eq (h.length_indexes asking))

theorem Aligned.map_snd_part (asking : Bool) : (re.part asking).map (·.2) = re.cmds asking :=
  map_snd_zip (Nat.le_of_eq (h.length_indexes asking).symm)

omit h

theorem getElem?_part {j : Nat} (h : (re.part asking)[j]? = some q) :
    (re.indexes asking)[j]? = some q.1 ∧ (re.cmds asking)[j]? = some q.2 :=
  getElem?_zip_eq_some.mp h

theorem part_subset_all (asking : Bool) : re.part asking ⊆ re.all := by
  cases asking
  · exact subset_append_left _ _
  · exact subset_append_right _ _

theorem part_eq_nil (h : (re.cmds asking).isEmpty = true) : re.part asking = [] := by
  rw [part, isEmpty_iff.mp h, zip_nil_right]

end Retry

def Connretry.all (r : Connretry) : List (Nat × Completed) := Buckets.content Retry.all r.m

/-! ## Frames -/

namespace Goroutine

variable {fr : List (Option Nat)}

theorem filterMap_askingFrame (inTx : Bool) (j : Nat) (cmds : List Completed) :
    (ClusterClient.askingFrame inTx j cmds).filterMap id = range' j cmds.length := by
  induction cmds generalizing inTx j with
  | nil => cases inTx <;> rfl
  | cons cmd cmds ih =>
    rw [length_cons, range'_succ]
    cases inTx <;> exact congrArg (j :: ·) (ih _ _)

theorem filterMap_frame (asking : Bool) (cmds : List Completed) :
    (frame asking cmds).filterMap id = range cmds.length := by
  cases asking with
  | true => exact (filterMap_askingFrame false 0 cmds).trans range_eq_range'.symm
  | false =>
    change ((range cmds.length).map some).filterMap id = _
    rw [filterMap_map]
    exact filterMap_some

variable {got : List Heard} {re : Retry} {x : Nat × Heard}

theorem map_fst_marked (h : got.length = fr.length) :
    (marked fr got).map (·.1) = fr.filterMap id := by
  induction fr generalizing got with
  | nil => rfl
  | cons mark fr ih =>
    cases got with
    | nil => cases h
    | cons r got =>
      have hrest : got.length = fr.length := by simpa using h
      cases mark with
      | none => exact ih hrest
      | some j => exact congrArg (j :: ·) (ih hrest)

theorem marked_append {fr' : List (Option Nat)} {got' : List Heard} (h : got.length = fr.length) :
    marked (fr ++ fr') (got ++ got') = marked fr got ++ marked fr' got' := by
  rw [marked, zip_append h.symm, filterMap_append]
  rfl

theorem marked_take_drop (fr : List (Option Nat)) (h : got.length = fr.length) (n : Nat) :
    marked fr got = marked (fr.take n) (got.take n) ++ marked (fr.drop n) (got.drop n) := by
  rw [← marked_append (by rw [length_take, length_take, h]), take_append_drop,
    take_append_drop]

/-! ## What a goroutine has -/

def later (re : Retry) (asking : Bool) : List (Nat × Completed) := if asking then [] else re.part true

def held (re : Retry) : Pc → List (Nat × Completed)
  | .call asking _ _ => re.part asking ++ later re asking
  | .handle asking _ i _ => (re.part asking).drop i ++ later re asking
  | .add asking _ i _ _ => (re.part asking).drop i ++ later re asking
  | .done => []

def awaited (re : Retry) : Pc → List (Nat × Completed)
  | .add asking _ i _ _ => (re.part asking).drop (i + 1) ++ later re asking
  | pc => held re pc

def asking : Pc → Bool
  | .call asking _ _ => asking
  | .handle asking _ _ _ => asking
  | .add asking _ _ _ _ => asking
  | .done => true

def heard (re : Retry) : Pc → List (Nat × Heard)
  | .call asking start got => marked ((frame asking (re.cmds asking)).take start) (got.take start)
  | .handle _ got i _ => ((List.range got.length).zip got).drop i
  | .add _ got i _ _ => ((List.range got.length).zip got).drop (i + 1)
  | .done => []

def WellFormed (re : Retry) : Pc → Prop
  | .call asking start got => start = 0 ∨ got.length = (frame asking (re.cmds asking)).length
  | .handle asking got _ _ => got.length = (re.cmds asking).length
  | .add asking got i _ a =>
    got.length = (re.cmds asking).length ∧ i < got.length ∧
      ∃ nc mode delay, a = .single nc mode i delay
  | .done => True

theorem awaited_sublist_held (re : Retry) (pc : Pc) : (awaited re pc).Sublist (held re pc) := by
  cases pc with
  | add asking got i sc a =>
    apply Sublist.append_right
    rw [← drop_drop]
    exact drop_sublist 1 _
  | call | handle | done => exact Sublist.refl _

theorem held_subset_all (re : Retry) (pc : Pc) : held re pc ⊆ re.all := by
  have hlater : ∀ asking, re.part asking ++ later re asking ⊆ re.all := by
    intro asking
    cases asking with
    | false => exact Subset.refl _
    | true =>
      rw [later, if_pos rfl, append_nil]
      exact Retry.part_subset_all true
  have hdrop : ∀ asking i, (re.part asking).drop i ++ later re asking ⊆ re.all := fun asking i =>
    Subset.trans ((drop_sublist i _).append_right _).subset (hlater asking)
  cases pc with
  | call asking start got => exact hlater asking
  | handle asking got i | add asking got i => exact hdrop asking i
  | done => exact nil_subset _

theorem mem_drop_of_heard {asking : Bool} {i : Nat}
    (hx : x ∈ ((range got.length).zip got).drop i) (hq : (re.part asking)[x.1]? = some q) :
    q ∈ (re.part asking).drop i := by
  obtain ⟨k, hk⟩ := mem_iff_getElem?.mp hx
  rw [getElem?_drop] at hk
  obtain ⟨hrange, -⟩ := List.getElem?_zip_eq_some.mp hk
  have hpos : i + k = x.1 := by
    obtain ⟨hlt, hget⟩ := List.getElem?_eq_some_iff.mp hrange
    rwa [getElem_range] at hget
  apply mem_of_getElem? (i := k)
  rwa [getElem?_drop, hpos]

theorem mem_awaited_of_heard {pc : Pc} (hx : x ∈ heard re pc)
    (hq : (re.part (asking pc))[x.1]? = some q) : q ∈ awaited re pc := by
  cases pc with
  | call asking start got => exact mem_append_left _ (mem_of_getElem? hq)
  | handle | add => exact mem_append_left _ (mem_drop_of_heard hx hq)
  | done => cases hx

structure Inv (multi : List Completed) (log : List Sent) (g : Goroutine) : Prop where
  aligned : g.re.Aligned
  owned : ∀ q ∈ g.re.all, multi[q.1]? = some q.2
  wellFormed : WellFormed g.re g.pc
  heard : ∀ x ∈ heard g.re g.pc, ∀ q, (g.re.part (asking g.pc))[x.1]? = some q →
    latest index log q.1 = some ⟨q.1, q.2, x.2.1, x.2.2⟩

section Steps

variable {multi : List Completed} {log : List Sent} {g : Goroutine} {es : List Sent}

theorem Inv.append (h : Inv multi log g) (hes : ∀ q ∈ awaited g.re g.pc, q.1 ∉ es.map index) :
    Inv multi (log ++ es) g := by
  refine { h with heard := fun x hx q hq => ?_ }
  rw [latest_append_of_notMem (hes q (mem_awaited_of_heard hx hq))]
  exact h.heard x hx q hq

theorem Inv.mem_of_mem_cmds (h : Inv multi log g) {asking : Bool} {cmd : Completed}
    (hcmd : cmd ∈ g.re.cmds asking) : cmd ∈ multi := by
  rw [← h.aligned.map_snd_part] at hcmd
  obtain ⟨q, hq, rfl⟩ := mem_map.mp hcmd
  exact mem_of_getElem? (h.owned q (Retry.part_subset_all asking hq))

def framedIndexes (re : Retry) (asking : Bool) (fr : List (Option Nat)) : List Nat :=
  (fr.filterMap id).map ((re.indexes asking).getD · 0)

theorem map_index_sent {asking : Bool} (fr : List (Option Nat)) {rs : List Heard}
    (h : rs.length = fr.length) :
    ((marked fr rs).map (sentBy re asking)).map index =
      framedIndexes re asking fr := by
  unfold framedIndexes
  rw [← map_fst_marked h, map_map, map_map]
  rfl

theorem map_getD_range (xs : List Nat) : (range xs.length).map (xs.getD · 0) = xs := by
  apply ext_getElem
  · rw [length_map, length_range]
  · intro i hi hi'
    rw [getElem_map, getElem_range, getD_eq_getElem?_getD, getElem?_eq_getElem hi',
      Option.getD_some]

theorem sentBy_eq {asking : Bool} (hq : (re.part asking)[x.1]? = some q) :
    sentBy re asking x = ⟨q.1, q.2, x.2.1, x.2.2⟩ := by
  obtain ⟨hindex, hcmd⟩ := Retry.getElem?_part hq
  rw [sentBy, getD_eq_getElem?_getD, hindex, getD_eq_getElem?_getD, hcmd]
  rfl

section Answer

variable {cc start : Nat} {re : Retry} {asking : Bool} {got rs : List Heard}

theorem framedIndexes_append (ha : re.Aligned) (asking : Bool) (start : Nat) :
    framedIndexes re asking ((frame asking (re.cmds asking)).take start) ++
      framedIndexes re asking ((frame asking (re.cmds asking)).drop start) = re.indexes asking := by
  unfold framedIndexes
  rw [← map_append, ← filterMap_append, take_append_drop, filterMap_frame,
    ← ha.length_indexes, map_getD_range]

theorem length_take_got (h : WellFormed re (.call asking start got)) :
    (got.take start).length = ((frame asking (re.cmds asking)).take start).length := by
  rcases h with hstart | hgot
  · simp [hstart]
  · rw [length_take, length_take, hgot]

theorem marked_got_append (h : WellFormed re (.call asking start got)) (rs : List Heard) :
    marked (frame asking (re.cmds asking)) (got.take start ++ rs) =
      marked ((frame asking (re.cmds asking)).take start) (got.take start) ++
        marked ((frame asking (re.cmds asking)).drop start) rs := by
  rw [← marked_append (length_take_got h), take_append_drop]

theorem length_got_append (h : WellFormed re (.call asking start got))
    (hrs : rs.length = ((frame asking (re.cmds asking)).drop start).length) :
    (got.take start ++ rs).length = (frame asking (re.cmds asking)).length := by
  rw [length_append, length_take_got h, hrs, ← length_append, take_append_drop]

theorem map_index_sublist (ha : re.Aligned)
    (hrs : rs.length = ((frame asking (re.cmds asking)).drop start).length) :
    (((marked ((frame asking (re.cmds asking)).drop start) rs).map
      (sentBy re asking)).map index).Sublist (re.indexes asking) := by
  rw [map_index_sent _ hrs, ← framedIndexes_append ha asking start]
  exact sublist_append_right _ _

variable (h : Inv multi log ⟨cc, re, .call asking start got⟩)
  (hrs : rs.length = ((frame asking (re.cmds asking)).drop start).length)

include h hrs

theorem heard_answer (hnodup : (re.indexes asking).Nodup) :
    ∀ x ∈ marked (frame asking (re.cmds asking)) (got.take start ++ rs), ∀ q,
      (re.part asking)[x.1]? = some q →
      latest index (log ++ (marked ((frame asking (re.cmds asking)).drop start) rs).map
        (sentBy re asking)) q.1 = some ⟨q.1, q.2, x.2.1, x.2.2⟩ := by
  have ha : re.Aligned := h.aligned
  have hwf : WellFormed re (.call asking start got) := h.wellFormed
  intro x hx q hq
  rw [marked_got_append hwf, mem_append] at hx
  rcases hx with hold | hnew
  · rw [latest_append_of_notMem]
    · exact h.heard x hold q hq
    · -- a command is framed once, so it is not sent again
      have hmem : q.1 ∈ framedIndexes re asking ((frame asking (re.cmds asking)).take start) := by
        refine mem_map.mpr ⟨x.1, ?_, ?_⟩
        · rw [← map_fst_marked (length_take_got hwf)]
          exact mem_map_of_mem hold
        · rw [getD_eq_getElem?_getD, (Retry.getElem?_part hq).1]
          rfl
      rw [← framedIndexes_append ha asking start] at hnodup
      rw [map_index_sent _ hrs]
      exact fun hagain => (nodup_append.mp hnodup).2.2 _ hmem _ hagain rfl
  · have hsent : sentBy re asking x ∈ (marked ((frame asking (re.cmds asking)).drop start)
        rs).map (sentBy re asking) := mem_map_of_mem hnew
    have hlatest : latest index (log ++ _) _ = some _ :=
      latest_append_of_mem (hnodup.sublist (map_index_sublist ha hrs)) hsent
    rwa [sentBy_eq hq] at hlatest

theorem Inv.answer (hnodup : (re.indexes asking).Nodup)
    (hes : es = (marked ((frame asking (re.cmds asking)).drop start) rs).map (sentBy re asking)) :
    (∀ start', Inv multi (log ++ es) ⟨cc, re, .call asking start' (got.take start ++ rs)⟩) ∧
      Inv multi (log ++ es) ⟨cc, re, .handle asking
        ((marked (frame asking (re.cmds asking)) (got.take start ++ rs)).map (·.2)) 0 {}⟩ := by
  have hheard := heard_answer h hrs hnodup
  have hlen := length_got_append h.wellFormed hrs
  have hfst : (marked (frame asking (re.cmds asking)) (got.take start ++ rs)).map (·.1) =
      range (re.cmds asking).length := by
    rw [map_fst_marked hlen, filterMap_frame]
  rw [← hes] at hheard
  generalize got.take start ++ rs = got' at hheard hlen hfst
  constructor
  · intro start'
    refine ⟨h.aligned, h.owned, Or.inr hlen, ?_⟩
    intro x hx q hq
    apply hheard x _ q hq
    rw [marked_take_drop _ hlen start']
    exact mem_append_left _ hx
  · have hcount : (marked (frame asking (re.cmds asking)) got').length = (re.cmds asking).length := by
      have hlength := congrArg length hfst
      rwa [length_map, length_range] at hlength
    refine ⟨h.aligned, h.owned, (length_map _).trans hcount, ?_⟩
    · intro x hx q hq
      apply hheard x _ q hq
      change x ∈ ((range (map _ _).length).zip (map _ _)).drop 0 at hx
      rw [drop_zero, length_map, hcount, ← hfst, zip_map', map_id'] at hx
      exact hx

theorem sent_owned :
    ∀ e ∈ (marked ((frame asking (re.cmds asking)).drop start) rs).map (sentBy re asking),
      multi[e.index]? = some e.cmd := by
  have ha : re.Aligned := h.aligned
  intro e he
  obtain ⟨x, hx, rfl⟩ := mem_map.mp he
  have hmark : x.1 ∈ ((frame asking (re.cmds asking)).drop start).filterMap id := by
    rw [← map_fst_marked hrs]
    exact mem_map_of_mem hx
  have hlt : x.1 < (re.part asking).length := by
    have hall := ((drop_sublist start (frame asking (re.cmds asking))).filterMap id).subset hmark
    rw [filterMap_frame, mem_range] at hall
    rw [ha.length_part]
    exact hall
  have hq := getElem?_eq_getElem hlt
  rw [sentBy_eq hq]
  exact h.owned _ (Retry.part_subset_all asking (getElem_mem hlt))

end Answer

section Handle

variable {cc i : Nat} {re : Retry} {asking : Bool} {got : List Heard} {sc : Scan}

theorem held_askings (re : Retry) : held re (askings re) = re.part true := by
  unfold askings
  split
  next hempty => exact (show re.part true = [] from Retry.part_eq_nil hempty).symm
  · exact append_nil _

theorem held_begin (re : Retry) : held re (begin re) = re.all := by
  unfold begin
  split
  next hempty =>
    have hnone : re.part false = [] := Retry.part_eq_nil hempty
    rw [held_askings, Retry.all, hnone, nil_append]
  · rfl

theorem awaited_askings (re : Retry) : awaited re (askings re) = held re (askings re) := by
  unfold askings
  split <;> rfl

theorem awaited_begin (re : Retry) : awaited re (begin re) = held re (begin re) := by
  unfold begin
  split
  · exact awaited_askings re
  · rfl

theorem inv_askings (ha : re.Aligned) (howned : ∀ q ∈ re.all, multi[q.1]? = some q.2) :
    Inv multi log ⟨cc, re, askings re⟩ := by
  unfold askings
  split
  · exact ⟨ha, howned, trivial, nofun⟩
  · exact ⟨ha, howned, Or.inl rfl, nofun⟩

theorem inv_begin (ha : re.Aligned) (howned : ∀ q ∈ re.all, multi[q.1]? = some q.2) :
    Inv multi log ⟨cc, re, begin re⟩ := by
  unfold begin
  split
  · exact inv_askings ha howned
  · exact ⟨ha, howned, Or.inl rfl, nofun⟩

theorem held_finished (ha : re.Aligned) (h : WellFormed re (.handle asking got i sc))
    (hi : got[i]? = none) :
    held re (if asking then .done else askings re) = held re (.handle asking got i sc) := by
  have hdrop : (re.part asking).drop i = [] := by
    rw [drop_eq_nil_iff, ha.length_part, ← (show got.length = _ from h)]
    exact getElem?_eq_none_iff.mp hi
  change _ = (re.part asking).drop i ++ later re asking
  rw [hdrop, nil_append]
  cases asking with
  | true => rfl
  | false => exact held_askings re

variable (h : Inv multi log ⟨cc, re, .handle asking got i sc⟩)

include h

theorem inv_finished : Inv multi log ⟨cc, re, if asking then .done else askings re⟩ := by
  cases asking with
  | true => exact ⟨h.aligned, h.owned, trivial, nofun⟩
  | false => exact inv_askings h.aligned h.owned

theorem Inv.handled (sc' : Scan) : Inv multi log ⟨cc, re, .handle asking got (i + 1) sc'⟩ := by
  refine ⟨h.aligned, h.owned, h.wellFormed, fun x hx => h.heard x ?_⟩
  change x ∈ ((range got.length).zip got).drop (i + 1) at hx
  rw [← drop_drop] at hx
  exact mem_of_mem_drop hx

omit h

variable {a : Added}

theorem Inv.adding (h : Inv multi log ⟨cc, re, .handle asking got i sc⟩) (hi : i < got.length)
    (sc' : Scan) (ha : ∃ nc mode delay, a = .single nc mode i delay) :
    Inv multi log ⟨cc, re, .add asking got i sc' a⟩ :=
  ⟨h.aligned, h.owned, ⟨h.wellFormed, hi, ha⟩, (h.handled sc').heard⟩

theorem Inv.added (h : Inv multi log ⟨cc, re, .add asking got i sc a⟩) :
    Inv multi log ⟨cc, re, .handle asking got (i + 1) sc⟩ :=
  ⟨h.aligned, h.owned, h.wellFormed.1, h.heard⟩

theorem Inv.current (h : Inv multi log ⟨cc, re, .handle asking got i sc⟩) {r : Heard}
    (hr : got[i]? = some r) :
    ∃ q, (re.part asking)[i]? = some q ∧ multi[q.1]? = some q.2 ∧
      latest index log q.1 = some ⟨q.1, q.2, r.1, r.2⟩ := by
  have ha : re.Aligned := h.aligned
  obtain ⟨hlt, rfl⟩ := List.getElem?_eq_some_iff.mp hr
  have hlen : got.length = (re.cmds asking).length := h.wellFormed
  have hpart : i < (re.part asking).length := by rwa [ha.length_part, ← hlen]
  have hq := List.getElem?_eq_getElem hpart
  refine ⟨_, hq, h.owned _ (Retry.part_subset_all asking (List.getElem_mem hpart)), ?_⟩
  refine h.heard (i, got[i]) ?_ _ hq
  apply List.mem_of_getElem? (i := 0)
  change (((List.range got.length).zip got).drop i)[0]? = _
  rw [List.getElem?_drop]
  exact List.getElem?_zip_eq_some.mpr ⟨by simp [hlt], by simp [hlt]⟩

theorem added_single {rd : Round} {resps : List RedisResult} {cm : Completed} {resp : RedisResult}
    {addr : Bytes} {mode : RedirectMode} {commands : List Completed}
    (hcommands : ∀ cmd ∈ commands, isMulti cmd = false)
    (h : (redirected rd commands resps i cm resp addr mode sc).2 = some a) :
    ∃ nc mode delay, a = .single nc mode i delay := by
  rcases redirected_cases h with ⟨nc, delay, ha⟩ | ⟨nc, mi, ei, -, -, hb, -⟩
  · exact ⟨nc, mode, delay, ha⟩
  · obtain ⟨cmd, hcmd, hmulti⟩ := Boundaries.hit_iff.mp hb.multi
    cases (hcommands cmd (mem_of_getElem? hcmd)).symm.trans hmulti

end Handle

end Steps

end Goroutine

end Rueidis
