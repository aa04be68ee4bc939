import Mathlib.Data.List.Perm.Basic
import Mathlib.Data.List.Nodup
import Mathlib.Data.List.Infix

/-!
Items in buckets that are filed under keys, and their redistribution.

When the items of a bucket are cut into runs that are kept or sent away as a whole (`kept`, `moved`),
nothing is lost and every run stays together.
-/

namespace Buckets

open List Option

variable {κ β α γ : Type} {m m' : List (κ × β)} {k : κ} {b : β} {moves : List (κ × α)} {f : β → γ}

def keys (m : List (κ × β)) : List κ := m.map (·.1)

def content (items : β → List α) (m : List (κ × β)) : List α := m.flatMap fun p => items p.2

theorem nodup_keys_of_perm (h : m'.Perm m) (hm : (keys m).Nodup) : (keys m').Nodup :=
  (h.map _).nodup_iff.mpr hm

variable {p : κ × β} {k' : κ} {empty : β} {xs : List α}

theorem subset_content {items : β → List α} (hp : p ∈ m) : items p.2 ⊆ content items m := by
  intro a ha
  exact mem_flatMap.mpr ⟨p, hp, ha⟩

theorem infix_flatMap {xs : List γ} {x : γ} (hx : x ∈ xs) (f : γ → List α) : f x <:+: xs.flatMap f := by
  obtain ⟨pre, post, rfl⟩ := append_of_mem hx
  exact ⟨pre.flatMap f, post.flatMap f, by simp [flatMap_append]⟩

theorem content_append (f g : β → List α) (m : List (κ × β)) :
    (content (fun b => f b ++ g b) m).Perm (content f m ++ content g m) := by
  induction m with
  | nil => exact Perm.nil
  | cons p m ih =>
    change (f p.2 ++ g p.2 ++ content (fun b => f b ++ g b) m).Perm
      (f p.2 ++ content f m ++ (g p.2 ++ content g m))
    refine (ih.append_left _).trans ?_
    rw [append_assoc, append_assoc]
    exact (perm_append_comm_assoc ..).append_left _

variable [BEq κ]

def put (m : List (κ × β)) (k : κ) (b : β) : List (κ × β) := (k, b) :: m.filter (·.1 != k)

theorem mem_put (h : p ∈ put m k b) : p = (k, b) ∨ p ∈ m := by
  cases h with
  | head => exact Or.inl rfl
  | tail _ hmem => exact Or.inr (mem_filter.mp hmem).1

def kept (k : κ) (runs : List (κ × List α)) : List α := (runs.filter (·.1 == k)).flatMap (·.2)

def moved (k : κ) (runs : List (κ × List α)) : List (κ × α) :=
  (runs.filter (·.1 != k)).flatMap fun run => run.2.map fun a => (run.1, a)

theorem kept_append_moved (k : κ) (runs : List (κ × List α)) :
    (kept k runs ++ (moved k runs).map (·.2)).Perm (runs.flatMap (·.2)) := by
  have hmoved : (moved k runs).map (·.2) = (runs.filter (·.1 != k)).flatMap (·.2) := by
    rw [moved, map_flatMap]
    congr 1
    funext run
    rw [List.map_map]
    exact map_id _
  rw [hmoved, kept, ← flatMap_append]
  exact (filter_append_perm (·.1 == k) runs).flatMap_right _

variable [LawfulBEq κ]

/-! ## One bucket -/

theorem lookup_filter_ne (h : k' ≠ k) (m : List (κ × β)) :
    (m.filter (·.1 != k)).lookup k' = m.lookup k' := by
  induction m with
  | nil => rfl
  | cons p m ih =>
    by_cases hp : p.1 = k
    · rw [filter_cons_of_neg (by simpa using hp), ih, lookup_cons,
        beq_false_of_ne (by rw [hp]; exact h)]
    · rw [filter_cons_of_pos (by simpa using hp), lookup_cons, lookup_cons, ih]

theorem lookup_put_self (m : List (κ × β)) (k : κ) (b : β) : (put m k b).lookup k = some b := by
  rw [put, lookup_cons, beq_self_eq_true]

theorem lookup_put_of_ne (h : k' ≠ k) (m : List (κ × β)) (b : β) :
    (put m k b).lookup k' = m.lookup k' := by
  rw [put, lookup_cons, beq_false_of_ne h]
  exact lookup_filter_ne h m

theorem mem_of_lookup (h : m.lookup k = some b) : (k, b) ∈ m := by
  obtain ⟨l₁, l₂, rfl, -⟩ := lookup_eq_some_iff.mp h
  exact mem_append_right _ mem_cons_self

theorem lookup_eq_none (h : k ∉ keys m) : m.lookup k = none :=
  lookup_eq_none_iff.mpr fun _ hp => bne_iff_ne.mpr fun he => h (he ▸ mem_map_of_mem hp)

theorem lookup_of_mem (hm : (keys m).Nodup) (h : (k, b) ∈ m) : m.lookup k = some b := by
  induction m with
  | nil => cases h
  | cons p m ih =>
    rw [keys, map_cons, nodup_cons] at hm
    rw [lookup_cons]
    cases h with
    | head => rw [beq_self_eq_true]
    | tail _ hmem =>
      have hne : k ≠ p.1 := fun he => hm.1 (he ▸ mem_map_of_mem hmem)
      rw [beq_false_of_ne hne]
      exact ih hm.2 hmem

theorem notMem_keys_filter (m : List (κ × β)) (k : κ) : k ∉ keys (m.filter (·.1 != k)) := by
  intro hmem
  obtain ⟨p, hp, hpk⟩ := mem_map.mp hmem
  exact bne_iff_ne.mp (mem_filter.mp hp).2 hpk

theorem nodup_put (hm : (keys m).Nodup) (k : κ) (b : β) : (keys (put m k b)).Nodup := by
  rw [keys, put, map_cons, nodup_cons]
  exact ⟨notMem_keys_filter m k, hm.sublist (filter_sublist.map _)⟩

theorem content_perm_lookup (items : β → List α) (hm : (keys m).Nodup) (k : κ) :
    (content items m).Perm
      ((m.lookup k).elim [] items ++ content items (m.filter (·.1 != k))) := by
  induction m with
  | nil => exact Perm.nil
  | cons p m ih =>
    rw [keys, map_cons, nodup_cons] at hm
    rw [lookup_cons]
    by_cases hp : p.1 = k
    · have hrest : m.filter (·.1 != k) = m := by
        apply filter_eq_self.mpr
        intro q hq
        rw [bne_iff_ne]
        rintro rfl
        exact hm.1 (hp ▸ mem_map_of_mem hq)
      rw [hp, beq_self_eq_true, filter_cons_of_neg (by simpa using hp), hrest]
      exact Perm.refl _
    · rw [beq_false_of_ne (Ne.symm hp), filter_cons_of_pos (by simpa using hp)]
      exact ((ih hm.2).append_left (items p.2)).trans (perm_append_comm_assoc ..)

theorem content_put (items : β → List α) (hm : (keys m).Nodup) (k : κ) {more : List α}
    (hb : (items b).Perm ((m.lookup k).elim [] items ++ more)) :
    (content items (put m k b)).Perm (content items m ++ more) := by
  have hsplit := content_perm_lookup items hm k
  refine Perm.trans ?_ (hsplit.symm.append_right more)
  refine (hb.append_right _).trans ?_
  rw [append_assoc, append_assoc]
  exact perm_append_comm.append_left _

theorem lookup_filter_self (m : List (κ × β)) (k : κ) : (m.filter (·.1 != k)).lookup k = none :=
  lookup_eq_none (notMem_keys_filter m k)

theorem content_perm_of_lookup {f : β → List γ} (hnil : f empty = []) (hm : (keys m).Nodup)
    (hm' : (keys m').Nodup) (h : ∀ k, f ((m'.lookup k).getD empty) = f ((m.lookup k).getD empty)) :
    (content f m').Perm (content f m) := by
  induction m' generalizing m with
  | nil =>
    refine Perm.of_eq (flatMap_eq_nil_iff.mpr ?_).symm
    intro p hp
    have hp' := h p.1
    rwa [lookup_of_mem hm hp, lookup_nil, getD_none, hnil, eq_comm] at hp'
  | cons p m' ih =>
    obtain ⟨k, b⟩ := p
    rw [keys, map_cons, nodup_cons] at hm'
    have hhead : f b = (m.lookup k).elim [] f := by
      have hk := h k
      rw [lookup_cons_self, getD_some] at hk
      rw [hk]
      cases m.lookup k with
      | none => exact hnil
      | some b' => rfl
    refine Perm.trans ?_ (content_perm_lookup f hm k).symm
    change (f b ++ content f m').Perm _
    rw [hhead]
    refine Perm.append_left _ (ih (hm.sublist (filter_sublist.map _)) hm'.2 ?_)
    intro k'
    by_cases hk : k' = k
    · subst hk
      rw [lookup_eq_none hm'.1, lookup_filter_self]
    · rw [lookup_filter_ne hk, ← h k', lookup_cons, beq_false_of_ne hk]

/-! ## Delivery -/

section Deliver

variable (push : β → α → β) (empty : β)

def deliver (m : List (κ × β)) (moves : List (κ × α)) : List (κ × β) :=
  moves.foldl (fun m p => put m p.1 (push ((m.lookup p.1).getD empty) p.2)) m

variable {push empty}

theorem nodup_deliver (hm : (keys m).Nodup) (moves : List (κ × α)) :
    (keys (deliver push empty m moves)).Nodup := by
  induction moves generalizing m with
  | nil => exact hm
  | cons p moves ih => exact ih (nodup_put hm _ _)

theorem project_deliver (hf : ∀ b a, f (push b a) = f b) (empty : β) (m : List (κ × β))
    (moves : List (κ × α)) (k : κ) :
    f (((deliver push empty m moves).lookup k).getD empty) = f ((m.lookup k).getD empty) := by
  induction moves generalizing m with
  | nil => rfl
  | cons p moves ih =>
    change f (((deliver push empty (put m _ _) moves).lookup k).getD empty) = _
    rw [ih]
    by_cases hk : k = p.1
    · subst hk
      rw [lookup_put_self, getD_some, hf]
    · rw [lookup_put_of_ne hk]

variable {items : β → List α} {Good : β → Prop}

theorem good_getD (hm : ∀ p ∈ m, Good p.2) (hempty : Good empty) (k : κ) :
    Good ((m.lookup k).getD empty) := by
  cases hlookup : m.lookup k with
  | none => exact hempty
  | some b => exact hm _ (mem_of_lookup hlookup)

variable (hempty : Good empty) (hpush : ∀ b a, Good b → Good (push b a))

include hempty hpush

theorem good_put (hm : ∀ p ∈ m, Good p.2) (k : κ) (a : α) :
    ∀ p ∈ put m k (push ((m.lookup k).getD empty) a), Good p.2 := by
  intro p hp
  rcases mem_put hp with rfl | hold
  · exact hpush _ _ (good_getD hm hempty k)
  · exact hm p hold

theorem good_deliver (hm : ∀ p ∈ m, Good p.2) (moves : List (κ × α)) :
    ∀ p ∈ deliver push empty m moves, Good p.2 := by
  induction moves generalizing m with
  | nil => exact hm
  | cons p moves ih => exact ih (good_put hempty hpush hm p.1 p.2)

variable (hitems : ∀ b a, Good b → items (push b a) = items b ++ [a])

include hitems

theorem items_deliver (hm : ∀ p ∈ m, Good p.2) (moves : List (κ × α)) (k : κ) :
    items (((deliver push empty m moves).lookup k).getD empty) =
      items ((m.lookup k).getD empty) ++ (moves.filter (·.1 == k)).map (·.2) := by
  induction moves generalizing m with
  | nil => exact (append_nil _).symm
  | cons p moves ih =>
    change items (((deliver push empty (put m _ _) moves).lookup k).getD empty) = _
    rw [ih (good_put hempty hpush hm p.1 p.2)]
    by_cases hk : p.1 = k
    · subst hk
      rw [lookup_put_self, getD_some, hitems _ _ (good_getD hm hempty p.1),
        filter_cons_of_pos (by simp), map_cons, append_assoc]
      rfl
    · rw [lookup_put_of_ne (Ne.symm hk), filter_cons_of_neg (by simpa using hk)]

theorem content_deliver (hnil : items empty = []) (hkeys : (keys m).Nodup) (hm : ∀ p ∈ m, Good p.2)
    (moves : List (κ × α)) :
    (content items (deliver push empty m moves)).Perm (content items m ++ moves.map (·.2)) := by
  induction moves generalizing m with
  | nil => rw [map_nil, append_nil]; exact Perm.refl _
  | cons p moves ih =>
    refine (ih (nodup_put hkeys _ _) (good_put hempty hpush hm p.1 p.2)).trans ?_
    have hput : (content items (put m p.1 (push ((m.lookup p.1).getD empty) p.2))).Perm
        (content items m ++ [p.2]) := by
      apply content_put items hkeys
      rw [hitems _ _ (good_getD hm hempty p.1)]
      cases m.lookup p.1 with
      | none => rw [getD_none, hnil]; exact Perm.refl _
      | some b => exact Perm.refl _
    rw [map_cons, ← singleton_append, ← append_assoc]
    exact hput.append_right _

theorem mem_of_mem_deliver (hm : ∀ p ∈ m, Good p.2) (hp : p ∈ deliver push empty m moves)
    (hp' : items p.2 = []) : p ∈ m := by
  induction moves generalizing m with
  | nil => exact hp
  | cons q moves ih =>
    rcases mem_put (ih (good_put hempty hpush hm q.1 q.2) hp) with rfl | hold
    · rw [hitems _ _ (good_getD hm hempty q.1)] at hp'
      simp at hp'
    · exact hold

end Deliver

/-! ## Runs that are kept or moved -/

section Runs

variable {runs : List (κ × List α)}

theorem infix_kept (h : (k, xs) ∈ runs) : xs <:+: kept k runs :=
  infix_flatMap (mem_filter.mpr ⟨h, beq_self_eq_true k⟩) (·.2)

theorem infix_moved (hne : k' ≠ k) (h : (k', xs) ∈ runs) :
    (xs.map fun a => (k', a)) <:+: moved k runs :=
  infix_flatMap (f := fun run => run.2.map fun a => (run.1, a))
    (mem_filter.mpr ⟨h, by rw [bne_iff_ne]; exact hne⟩)

theorem infix_arrived (h : (xs.map fun a => (k, a)) <:+: moves) :
    xs <:+: (moves.filter (·.1 == k)).map (·.2) := by
  obtain ⟨pre, post, rfl⟩ := h
  have hself : ((xs.map fun a => (k, a)).filter (·.1 == k)).map (·.2) = xs := by
    rw [List.filter_eq_self.mpr (by simp), List.map_map]
    exact map_id _
  refine ⟨(pre.filter (·.1 == k)).map (·.2), (post.filter (·.1 == k)).map (·.2), ?_⟩
  rw [filter_append, filter_append, map_append, map_append, hself]

end Runs

/-! ## Redistribution -/

section Redistribution

variable (cut : List α → List (List α)) (items : β → List α) (refill : β → List α → β)
  (drained : β → Bool)

/-- One pass over the buckets.  The items of a bucket are cut into runs, each run gets a key, and
the bucket keeps those with its own; a bucket without items is passed over, and one that was drained
is taken away. -/
inductive Redistributed : List (κ × β) → List (κ × β) → List (κ × α) → Prop where
  | nil : Redistributed [] [] []
  | skip {k : κ} {b : β} {m m' : List (κ × β)} {moves : List (κ × α)} (hb : items b = [])
      (h : Redistributed m m' moves) : Redistributed ((k, b) :: m) ((k, b) :: m') moves
  | drop {k : κ} {b : β} {m m' : List (κ × β)} {moves : List (κ × α)}
      (runs : List (κ × List α)) (hruns : runs.map (·.2) = cut (items b))
      (hdrained : drained (refill b (kept k runs)) = true) (h : Redistributed m m' moves) :
      Redistributed ((k, b) :: m) m' (moved k runs ++ moves)
  | keep {k : κ} {b : β} {m m' : List (κ × β)} {moves : List (κ × α)}
      (runs : List (κ × List α)) (hruns : runs.map (·.2) = cut (items b))
      (hdrained : drained (refill b (kept k runs)) = false) (h : Redistributed m m' moves) :
      Redistributed ((k, b) :: m) ((k, refill b (kept k runs)) :: m') (moved k runs ++ moves)

variable {Good : β → Prop}

namespace Redistributed

variable {cut items refill drained}

omit [LawfulBEq κ] in
theorem keys_sublist (h : Redistributed cut items refill drained m m' moves) :
    (keys m').Sublist (keys m) := by
  induction h with
  | nil => exact Sublist.refl _
  | skip _ _ ih | keep _ _ _ _ ih => exact ih.cons_cons _
  | drop _ _ _ _ ih => exact ih.cons _

omit [LawfulBEq κ] in
theorem good (hrefill : ∀ b xs, Good b → Good (refill b xs))
    (h : Redistributed cut items refill drained m m' moves) (hm : ∀ p ∈ m, Good p.2) :
    ∀ p ∈ m', Good p.2 := by
  induction h with
  | nil => exact hm
  | skip _ _ ih =>
    rw [forall_mem_cons] at hm ⊢
    exact ⟨hm.1, ih hm.2⟩
  | drop _ _ _ _ ih =>
    rw [forall_mem_cons] at hm
    exact ih hm.2
  | keep _ _ _ _ ih =>
    rw [forall_mem_cons] at hm ⊢
    exact ⟨hrefill _ _ hm.1, ih hm.2⟩

theorem project (hrefill : ∀ b xs, f (refill b xs) = f b)
    (hempty : ∀ b, Good b → drained b = true → f b = f empty)
    (hgood : ∀ b xs, Good b → Good (refill b xs))
    (h : Redistributed cut items refill drained m m' moves) (hm : ∀ p ∈ m, Good p.2)
    (hkeys : (keys m).Nodup) (k : κ) :
    f ((m'.lookup k).getD empty) = f ((m.lookup k).getD empty) := by
  induction h with
  | nil => rfl
  | @skip k' b m m' moves _ _ ih =>
    rw [forall_mem_cons] at hm
    rw [keys, map_cons, nodup_cons] at hkeys
    rw [lookup_cons, lookup_cons]
    cases k == k' with
    | true => rfl
    | false => exact ih hm.2 hkeys.2
  | @drop k' b m m' moves runs _ hdrained hrest ih =>
    rw [forall_mem_cons] at hm
    rw [keys, map_cons, nodup_cons] at hkeys
    rw [ih hm.2 hkeys.2, lookup_cons]
    by_cases hk : k = k'
    · -- the bucket is gone, and there is no other of its key
      subst hk
      rw [lookup_eq_none hkeys.1, beq_self_eq_true, getD_none, getD_some,
        ← hrefill b (kept k runs), hempty _ (hgood _ _ hm.1) hdrained]
    · rw [beq_false_of_ne hk]
  | @keep k' b m m' moves runs _ _ _ ih =>
    rw [forall_mem_cons] at hm
    rw [keys, map_cons, nodup_cons] at hkeys
    rw [lookup_cons, lookup_cons]
    cases k == k' with
    | true => exact hrefill b _
    | false => exact ih hm.2 hkeys.2

omit [LawfulBEq κ] in
theorem content_perm (hrefill : ∀ b xs, items (refill b xs) = xs)
    (hdrained : ∀ b, drained b = true → items b = []) (hcut : ∀ xs, (cut xs).flatten = xs)
    (h : Redistributed cut items refill drained m m' moves) :
    (content items m' ++ moves.map (·.2)).Perm (content items m) := by
  have hall : ∀ (runs : List (κ × List α)) (b : β), runs.map (·.2) = cut (items b) →
      runs.flatMap (·.2) = items b := by
    intro runs b hruns
    rw [flatMap_def, hruns, hcut]
  induction h with
  | nil => exact Perm.nil
  | @skip k b m m' moves _ _ ih =>
    change (items b ++ content items m' ++ _).Perm (items b ++ content items m)
    rw [append_assoc]
    exact ih.append_left _
  | @drop k b m m' moves runs hruns hd _ ih =>
    have hkept : kept k runs = [] := (hrefill b _).symm.trans (hdrained _ hd)
    have hsplit := kept_append_moved k runs
    rw [hkept, nil_append, hall runs b hruns] at hsplit
    rw [map_append]
    exact Perm.trans (perm_append_comm_assoc ..) (hsplit.append ih)
  | @keep k b m m' moves runs hruns _ _ ih =>
    have hsplit := kept_append_moved k runs
    rw [hall runs b hruns] at hsplit
    change (items (refill b (kept k runs)) ++ content items m' ++ _).Perm
      (items b ++ content items m)
    rw [hrefill, map_append]
    refine Perm.trans ?_ (hsplit.append ih)
    rw [append_assoc, append_assoc]
    exact (perm_append_comm_assoc ..).append_left _

omit [LawfulBEq κ] in
theorem mem_of_drained (h : Redistributed cut items refill drained m m' moves) (hp : p ∈ m')
    (hp' : drained p.2 = true) : p ∈ m ∧ items p.2 = [] := by
  induction h with
  | nil => cases hp
  | skip hb _ ih =>
    cases hp with
    | head => exact ⟨mem_cons_self, hb⟩
    | tail _ hmem => exact ⟨mem_cons_of_mem _ (ih hmem).1, (ih hmem).2⟩
  | drop _ _ _ _ ih => exact ⟨mem_cons_of_mem _ (ih hp).1, (ih hp).2⟩
  | keep _ _ hd _ ih =>
    cases hp with
    | head => cases hd.symm.trans hp'
    | tail _ hmem => exact ⟨mem_cons_of_mem _ (ih hmem).1, (ih hmem).2⟩

theorem run_together (hrefill : ∀ b xs, items (refill b xs) = xs)
    (hdrained : ∀ b, drained b = true → items b = []) (hnil : cut [] = [])
    (h : Redistributed cut items refill drained m m' moves) (hb : (k, b) ∈ m)
    (hxs : xs ∈ cut (items b)) (hne : xs ≠ []) :
    (∃ b', (k, b') ∈ m' ∧ xs <:+: items b') ∨ ∃ k', (xs.map fun a => (k', a)) <:+: moves := by
  -- a run of this bucket with its key, or a bucket further on
  have hrun : ∀ (runs : List (κ × List α)), runs.map (·.2) = cut (items b) →
      ∃ k', (k', xs) ∈ runs := by
    intro runs hruns
    rw [← hruns] at hxs
    obtain ⟨⟨k', _⟩, hmem, rfl⟩ := mem_map.mp hxs
    exact ⟨k', hmem⟩
  have hlater : ∀ {moves : List (κ × α)} (front : List (κ × α)),
      (∃ k', (xs.map fun a => (k', a)) <:+: moves) →
        ∃ k', (xs.map fun a => (k', a)) <:+: front ++ moves := by
    intro moves front ⟨k', hinfix⟩
    exact ⟨k', hinfix.trans (suffix_append front moves).isInfix⟩
  induction h with
  | nil => cases hb
  | skip hempty _ ih =>
    cases hb with
    | head =>
      rw [hempty, hnil] at hxs
      cases hxs
    | tail _ hmem =>
      exact (ih hmem).imp_left fun ⟨b', hb', hinfix⟩ => ⟨b', mem_cons_of_mem _ hb', hinfix⟩
  | drop runs hruns hd _ ih =>
    cases hb with
    | head =>
      obtain ⟨k', hmem⟩ := hrun runs hruns
      by_cases hk : k' = k
      · -- it would have been kept, and the bucket not drained
        subst hk
        have hkept := infix_kept hmem
        rw [← hrefill b (kept k' runs), hdrained _ hd] at hkept
        exact absurd (eq_nil_of_infix_nil hkept) hne
      · exact Or.inr ⟨k', (infix_moved hk hmem).trans (prefix_append _ _).isInfix⟩
    | tail _ hmem => exact (ih hmem).imp_right (hlater _)
  | keep runs hruns _ _ ih =>
    cases hb with
    | head =>
      obtain ⟨k', hmem⟩ := hrun runs hruns
      by_cases hk : k' = k
      · subst hk
        refine Or.inl ⟨_, mem_cons_self, ?_⟩
        rw [hrefill]
        exact infix_kept hmem
      · exact Or.inr ⟨k', (infix_moved hk hmem).trans (prefix_append _ _).isInfix⟩
    | tail _ hmem =>
      exact (ih hmem).imp (fun ⟨b', hb', hinfix⟩ => ⟨b', mem_cons_of_mem _ hb', hinfix⟩) (hlater _)

end Redistributed

/-- What the pass and the delivery need of a kind of bucket: `items` are moved about, `asks` are
left alone, and the buckets are `Good`. -/
structure Laws (push : β → α → β) (empty : β) (asks : β → γ) (Good : β → Prop) : Prop where
  good_empty : Good empty
  good_push : ∀ b a, Good b → Good (push b a)
  good_refill : ∀ b xs, Good b → Good (refill b xs)
  items_empty : items empty = []
  items_push : ∀ b a, Good b → items (push b a) = items b ++ [a]
  items_refill : ∀ b xs, items (refill b xs) = xs
  items_drained : ∀ b, drained b = true → items b = []
  asks_push : ∀ b a, asks (push b a) = asks b
  asks_refill : ∀ b xs, asks (refill b xs) = asks b
  asks_drained : ∀ b, Good b → drained b = true → asks b = asks empty

structure Conserved (cut : List α → List (List α)) (items : β → List α) (drained : β → Bool) (empty : β)
    (asks : β → γ) (Good : β → Prop) (m after : List (κ × β)) : Prop where
  keys : (keys after).Nodup
  content : (content items after).Perm (content items m)
  asks : ∀ k, asks ((after.lookup k).getD empty) = asks ((m.lookup k).getD empty)
  good : ∀ p ∈ after, Good p.2
  drained : ∀ p ∈ after, drained p.2 = true → p ∈ m
  together : ∀ k b xs, (k, b) ∈ m → xs ∈ cut (items b) → xs ≠ [] →
    ∃ k' b', (k', b') ∈ after ∧ xs <:+: items b'

theorem Laws.conserved {cut : List α → List (List α)} {items : β → List α} {refill : β → List α → β}
    {drained : β → Bool} {push : β → α → β} {asks : β → γ}
    (laws : Laws items refill drained push empty asks Good) (hcut : ∀ xs, (cut xs).flatten = xs)
    (hnil : cut [] = []) (h : Redistributed cut items refill drained m m' moves)
    (hkeys : (keys m).Nodup) (hm : ∀ p ∈ m, Good p.2) :
    Conserved cut items drained empty asks Good m (deliver push empty m' moves) := by
  have hm' : ∀ p ∈ m', Good p.2 := h.good laws.good_refill hm
  have hkeys' : (Buckets.keys m').Nodup := hkeys.sublist h.keys_sublist
  constructor
  · exact nodup_deliver hkeys' moves
  · exact (content_deliver laws.good_empty laws.good_push laws.items_push laws.items_empty hkeys' hm'
      moves).trans (h.content_perm laws.items_refill laws.items_drained hcut)
  · intro k
    rw [project_deliver laws.asks_push,
      h.project laws.asks_refill laws.asks_drained laws.good_refill hm hkeys]
  · exact good_deliver laws.good_empty laws.good_push hm' moves
  · intro p hp hdrained
    have hold := mem_of_mem_deliver laws.good_empty laws.good_push laws.items_push hm' hp
      (laws.items_drained _ hdrained)
    exact (h.mem_of_drained hold hdrained).1
  · intro k b xs hb hxs hne
    -- a run that stayed is in front of what was delivered; one that was moved is behind it
    have hthere : ∀ k', xs <:+: items (((deliver push empty m' moves).lookup k').getD empty) →
        ∃ k' b', (k', b') ∈ deliver push empty m' moves ∧ xs <:+: items b' := by
      intro k' hinfix
      cases hlookup : (deliver push empty m' moves).lookup k' with
      | none =>
        rw [hlookup, getD_none, laws.items_empty] at hinfix
        exact absurd (eq_nil_of_infix_nil hinfix) hne
      | some b' =>
        rw [hlookup, getD_some] at hinfix
        exact ⟨k', b', mem_of_lookup hlookup, hinfix⟩
    rcases h.run_together laws.items_refill laws.items_drained hnil hb hxs hne with
      ⟨b', hb', hinfix⟩ | ⟨k', hinfix⟩
    · apply hthere k
      rw [items_deliver laws.good_empty laws.good_push laws.items_push hm', lookup_of_mem hkeys' hb',
        getD_some]
      exact hinfix.trans (prefix_append _ _).isInfix
    · apply hthere k'
      rw [items_deliver laws.good_empty laws.good_push laws.items_push hm']
      exact (infix_arrived hinfix).trans (suffix_append _ _).isInfix

theorem Conserved.content_asks {δ : Type} {cut : List α → List (List α)} {items : β → List α}
    {drained : β → Bool} {asks : β → γ} {after : List (κ × β)}
    (h : Conserved cut items drained empty asks Good m after) (hm : (Buckets.keys m).Nodup)
    {f : γ → List δ} (hnil : f (asks empty) = []) :
    (Buckets.content (fun b => f (asks b)) after).Perm (Buckets.content (fun b => f (asks b)) m) := by
  exact content_perm_of_lookup (f := fun b => f (asks b)) hnil hm h.keys fun k => congrArg f (h.asks k)

end Redistribution

end Buckets
