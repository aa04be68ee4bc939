import Rueidis.Library.History
import Rueidis.Library.Threads
import Rueidis.PubSub.Model

/-!
# The table and its users

What the table holds is what the users see: an id is found in the table, and under a channel, exactly
while its subscription is active.
-/

namespace Rueidis.PubSub

open List Option Function History Machine Threads

/-! ## Entries of the maps -/

variable {u : Users} {events : List Event}

def entry (chs : Bytes → Option Ids) (c : Bytes) (id : Nat) : Option Nat :=
  ((chs c).getD fun _ => none) id

theorem entry_enter (chs : Bytes → Option Ids) (id p : Nat) (channel c : Bytes) (i : Nat) :
    entry (Subs.enter id p chs channel) c i =
      if i = id ∧ c = channel then some p else entry chs c i := by
  unfold entry Subs.enter
  by_cases hc : c = channel
  · subst hc
    rw [update_self, getD_some, update_apply]
    simp only [and_true]
  · rw [update_of_ne hc, if_neg (fun h => hc h.2)]

theorem entry_leave (chs : Bytes → Option Ids) (id : Nat) (channel c : Bytes) (i : Nat) :
    entry (Subs.leave id chs channel) c i =
      if i = id ∧ c = channel then none else entry chs c i := by
  unfold entry Subs.leave
  by_cases hc : c = channel
  · subst hc
    cases hm : chs c with
    | none =>
      simp only [hm]
      split <;> rfl
    | some m =>
      simp only
      rw [update_self, getD_some, update_apply, getD_some]
      simp only [and_true]
  · rw [if_neg (fun h => hc h.2)]
    cases chs channel with
    | none => rfl
    | some m =>
      simp only
      rw [update_of_ne hc]

variable {id : Nat} {f : Subscription → Bool}

theorem entry_foldl {f : (Bytes → Option Ids) → Bytes → Bytes → Option Ids} {v : Option Nat}
    (hf : ∀ chs channel c i,
      entry (f chs channel) c i = if i = id ∧ c = channel then v else entry chs c i)
    (chs : Bytes → Option Ids) (channels : List Bytes) (c : Bytes) (i : Nat) :
    entry (channels.foldl f chs) c i = if i = id ∧ c ∈ channels then v else entry chs c i := by
  induction channels generalizing chs with
  | nil => simp
  | cons channel channels ih =>
    rw [foldl_cons, ih, hf]
    by_cases hi : i = id <;> by_cases hc : c = channel <;> by_cases hr : c ∈ channels <;> simp [*]

/-! ## Users -/

def Users.Active (u : Users) (p id : Nat) (cs : List Bytes) : Prop :=
  u.subs[p]? = some ⟨id, cs, true⟩

@[simp] theorem Users.closed_over (u : Users) (f : Subscription → Bool) :
    (u.over f).closed = u.closed := rfl

theorem Users.getElem?_over (u : Users) (f : Subscription → Bool) (p : Nat) :
    (u.over f).subs[p]? = u.subs[p]?.map fun x => { x with active := x.active && !f x } :=
  getElem?_map

theorem Users.active_over (u : Users) (f : Subscription → Bool) (p id : Nat) (cs : List Bytes) :
    (u.over f).Active p id cs ↔ u.Active p id cs ∧ f ⟨id, cs, true⟩ = false := by
  unfold Users.Active
  rw [Users.getElem?_over]
  cases hx : u.subs[p]? with
  | none => simp
  | some x =>
    obtain ⟨xid, xcs, xactive⟩ := x
    cases xactive with
    | false => simp
    | true =>
      simp only [map_some, some.injEq, Subscription.mk.injEq, Bool.true_and,
        Bool.not_eq_true', and_true]
      constructor
      · rintro ⟨rfl, rfl, h⟩
        exact ⟨⟨rfl, rfl⟩, h⟩
      · rintro ⟨⟨rfl, rfl⟩, h⟩
        exact ⟨rfl, rfl, h⟩

theorem Users.over_congr {g : Subscription → Bool}
    (h : ∀ p id cs, u.Active p id cs → f ⟨id, cs, true⟩ = g ⟨id, cs, true⟩) :
    u.over f = u.over g := by
  unfold Users.over
  congr 1
  apply map_congr_left
  intro x hx
  obtain ⟨p, hp⟩ := mem_iff_getElem?.mp hx
  obtain ⟨id, cs, active⟩ := x
  cases active with
  | false => rfl
  | true => rw [h p id cs hp]

theorem Users.over_false (u : Users) : u.over (fun _ => false) = u := by
  unfold Users.over
  simp

theorem Users.over_over (u : Users) (f g : Subscription → Bool)
    (hg : ∀ x b, g { x with active := b } = g x) :
    (u.over f).over g = u.over fun x => f x || g x := by
  unfold Users.over
  congr 1
  rw [List.map_map]
  apply List.map_congr_left
  intro x _
  simp [hg, Bool.and_assoc]

/-! ## The invariant -/

structure Inv (s : Subs) (u : Users) : Prop where
  ok : s.panicked = false
  length : s.objects.length = u.subs.length
  cs : ∀ (p : Nat) o x, s.objects[p]? = some o → u.subs[p]? = some x → o.cs = x.cs
  closed : u.closed = s.chs.isNone
  ended : u.closed = true → ∀ p id cs, ¬ u.Active p id cs
  sub : ∀ id p, s.sub id = some p ↔ ∃ cs, u.Active p id cs
  listed : ∀ c id p, s.listed c id = some p ↔ ∃ cs, u.Active p id cs ∧ c ∈ cs
  open_iff : ∀ (p : Nat) o x, s.objects[p]? = some o → u.subs[p]? = some x →
    (o.closed = false ↔ x.active = true ∨ p ∈ s.closing)
  closing : s.closing.Nodup ∧ ∀ p ∈ s.closing, ∃ id cs, u.subs[p]? = some ⟨id, cs, false⟩
  ids : ∀ (p q : Nat) x y, u.subs[p]? = some x → u.subs[q]? = some y → x.id = y.id → p = q
  numbered : ∀ x ∈ u.subs, 0 < x.id ∧ x.id ≤ s.cnt ∧ x.id ∉ s.drawn
  drawn : s.drawn.Nodup ∧ ∀ id ∈ s.drawn, 0 < id ∧ id ≤ s.cnt

section Invariant

variable {s : Subs} {u : Users}
  {p : Nat} {cs : List Bytes} {o : Sub} {chs : Bytes → Option Ids} {order : List Nat}

variable {x : Subscription}

theorem Users.active_inj (h : Inv s u) {q : Nat} {cs' : List Bytes} (hp : u.Active p id cs)
    (hq : u.Active q id cs') : p = q :=
  h.ids p q _ _ hp hq rfl

theorem Inv.none_active (h : Inv s u) (hchs : s.chs = none) (p id : Nat) (cs : List Bytes) :
    ¬ u.Active p id cs := by
  apply h.ended
  rw [h.closed, hchs]
  rfl

theorem Inv.exists_object (h : Inv s u) (hx : u.subs[p]? = some x) :
    ∃ o, s.objects[p]? = some o := by
  have hlt := (List.getElem?_eq_some_iff.mp hx).1
  rw [← h.length] at hlt
  exact ⟨_, List.getElem?_eq_getElem hlt⟩

theorem Inv.open_of_active (h : Inv s u) (hp : u.Active p id cs) :
    ∃ o, s.objects[p]? = some o ∧ o.closed = false ∧ o.cs = cs := by
  obtain ⟨o, ho⟩ := h.exists_object hp
  exact ⟨o, ho, (h.open_iff p o _ ho hp).mpr (Or.inl rfl), h.cs p o _ ho hp⟩

theorem inv_new : Inv {} {} where
  ok := rfl
  length := rfl
  cs := nofun
  closed := rfl
  ended := nofun
  sub := fun _ _ => ⟨nofun, nofun⟩
  listed := fun _ _ _ => ⟨nofun, nofun⟩
  open_iff := nofun
  closing := ⟨nodup_nil, nofun⟩
  ids := nofun
  numbered := nofun
  drawn := ⟨nodup_nil, nofun⟩

/-! ## Objects that keep their channels -/

theorem Inv.cs_set (h : Inv s u) {n : Sub} (ho : s.objects[p]? = some o) (hcs : n.cs = o.cs)
    (q : Nat) (r : Sub) (x : Subscription) (hr : (s.objects.set p n)[q]? = some r)
    (hx : u.subs[q]? = some x) : r.cs = x.cs := by
  rcases of_getElem?_set hr with ⟨rfl, rfl⟩ | ⟨-, hr⟩
  · exact hcs.trans (h.cs q o x ho hx)
  · exact h.cs q r x hr hx

theorem Inv.set_object (h : Inv s u) {o' : Sub} (ho : s.objects[p]? = some o) (hcs : o'.cs = o.cs)
    (hclosed : o'.closed = o.closed) : Inv { s with objects := s.objects.set p o' } u := by
  refine { h with length := ?_, cs := h.cs_set ho hcs, open_iff := ?_ }
  · exact length_set.trans h.length
  · intro q r x hr hx
    rcases of_getElem?_set hr with ⟨rfl, rfl⟩ | ⟨-, hr⟩
    · rw [hclosed]
      exact h.open_iff q o x ho hx
    · exact h.open_iff q r x hr hx

theorem Inv.tell (h : Inv s u) (hp : u.Active p id cs) (sub : PubSubSubscription) :
    Inv (s.tell p sub) u ∧ (s.tell p sub).chs = s.chs ∧ (s.tell p sub).cnt = s.cnt := by
  obtain ⟨o, ho⟩ := h.exists_object hp
  unfold Subs.tell
  rw [ho]
  dsimp only
  split
  · exact ⟨h.set_object ho rfl rfl, rfl, rfl⟩
  · exact ⟨h, rfl, rfl⟩

theorem listed_eq (h : s.chs = some chs) (c : Bytes) (id : Nat) :
    s.listed c id = entry chs c id := by
  unfold Subs.listed
  rw [h]
  rfl

theorem foldl_send (h : Inv s u) (channel : Bytes) (msg : PubSubMessage) (hnodup : order.Nodup) :
    Inv (order.foldl (Subs.visit channel fun s _ p => s.send p msg) s) u ∧
    ∀ p : Nat, (order.foldl (Subs.visit channel fun s _ p => s.send p msg) s).objects[p]? =
      s.objects[p]?.map fun o =>
        if ∃ id ∈ order, s.listed channel id = some p then { o with sent := o.sent ++ [msg] }
        else o := by
  induction order generalizing s with
  | nil =>
    refine ⟨h, fun p => ?_⟩
    simp
  | cons id order ih =>
    rw [nodup_cons] at hnodup
    rw [foldl_cons]
    cases hid : s.listed channel id with
    | none =>
      have hskip : Subs.visit channel (fun s _ p => s.send p msg) s id = s := by
        unfold Subs.visit
        rw [hid]
      rw [hskip]
      refine ⟨(ih h hnodup.2).1, fun p => ?_⟩
      rw [(ih h hnodup.2).2 p]
      simp [hid]
    | some q =>
      obtain ⟨cs, hq, hc⟩ := (h.listed channel id q).mp hid
      obtain ⟨o, ho, hopen, _⟩ := h.open_of_active hq
      have hsend : Subs.visit channel (fun s _ p => s.send p msg) s id =
          { s with objects := s.objects.set q { o with sent := o.sent ++ [msg] } } := by
        unfold Subs.visit Subs.send
        rw [hid]
        dsimp only
        rw [ho]
        dsimp only
        rw [if_neg (by rw [hopen]; decide)]
      rw [hsend]
      have hinv : Inv { s with objects := s.objects.set q { o with sent := o.sent ++ [msg] } } u :=
        h.set_object ho rfl rfl
      have hlisted : Subs.listed
          { s with objects := s.objects.set q { o with sent := o.sent ++ [msg] } } = s.listed := rfl
      refine ⟨(ih hinv hnodup.2).1, fun p => ?_⟩
      rw [(ih hinv hnodup.2).2 p, hlisted]
      -- the object of this turn is not found again
      have honce : ∀ i ∈ order, s.listed channel i ≠ some q := by
        intro i hi hfound
        obtain ⟨cs', hq', _⟩ := (h.listed channel i q).mp hfound
        cases hq.symm.trans hq'
        exact hnodup.1 hi
      by_cases hpq : q = p
      · subst hpq
        have hnot : ¬ ∃ i ∈ order, s.listed channel i = some q := fun ⟨i, hi, hf⟩ => honce i hi hf
        have hlt := (List.getElem?_eq_some_iff.mp ho).1
        have hfound : ∃ i ∈ id :: order, s.listed channel i = some q :=
          ⟨id, mem_cons_self, hid⟩
        simp only [getElem?_set, if_true, hlt, map_some, hnot, if_false, ho, hfound]
      · have hsame : (∃ i ∈ id :: order, s.listed channel i = some p) ↔
            ∃ i ∈ order, s.listed channel i = some p := by
          simp [hid, hpq]
        simp only [getElem?_set, hpq, if_false, hsame]

theorem foldl_tell (h : Inv s u) (channel : Bytes) (sub : PubSubSubscription)
    (order : List Nat) :
    Inv (order.foldl (Subs.visit channel fun s _ p => s.tell p sub) s) u := by
  induction order generalizing s with
  | nil => exact h
  | cons id order ih =>
    rw [foldl_cons]
    apply ih
    unfold Subs.visit
    split
    · exact h
    next p hid =>
      obtain ⟨cs, hp, _⟩ := (h.listed channel id p).mp hid
      exact (h.tell hp sub).1

/-! ## Subscriptions that end -/

theorem Users.getElem?_over_eq_some {u : Users} (h : (u.over f).subs[p]? = some x) :
    ∃ y, u.subs[p]? = some y ∧ x = { y with active := y.active && !f y } := by
  rw [Users.getElem?_over, map_eq_some_iff] at h
  obtain ⟨y, hy, hx⟩ := h
  exact ⟨y, hy, hx.symm⟩

variable (h : Inv s u)

include h

theorem Inv.ids_over (f : Subscription → Bool) :
    (∀ (p q : Nat) x y, (u.over f).subs[p]? = some x → (u.over f).subs[q]? = some y →
      x.id = y.id → p = q) ∧
    (∀ x ∈ (u.over f).subs, 0 < x.id ∧ x.id ≤ s.cnt ∧ x.id ∉ s.drawn) ∧
    (s.closing.Nodup ∧ ∀ p ∈ s.closing, ∃ id cs, (u.over f).subs[p]? = some ⟨id, cs, false⟩) := by
  refine ⟨?_, ?_, h.closing.1, ?_⟩
  · intro p q x y hx hy hid
    obtain ⟨x', hx', rfl⟩ := Users.getElem?_over_eq_some hx
    obtain ⟨y', hy', rfl⟩ := Users.getElem?_over_eq_some hy
    exact h.ids p q x' y' hx' hy' hid
  · intro x hx
    obtain ⟨p, hp⟩ := mem_iff_getElem?.mp hx
    obtain ⟨y, hy, rfl⟩ := Users.getElem?_over_eq_some hp
    exact h.numbered y (mem_of_getElem? hy)
  · intro p hp
    obtain ⟨id, cs, hx⟩ := h.closing.2 p hp
    refine ⟨id, cs, ?_⟩
    rw [Users.getElem?_over, hx]
    rfl

theorem Inv.over_none (hf : ∀ p id cs, u.Active p id cs → f ⟨id, cs, true⟩ = false) :
    Inv s (u.over f) := by
  rw [Users.over_congr (g := fun _ => false) hf, Users.over_false]
  exact h

theorem Inv.remove_active (hchs : s.chs = some chs) (hp : u.Active p id cs)
    (ho : s.objects[p]? = some o) : Inv { s with
      chs := some (cs.foldl (Subs.leave id) chs)
      objects := s.objects.set p { o with closed := true }
      sub := update s.sub id none } (u.over fun x => x.id == id) := by
  have hopen : u.closed = false := by rw [h.closed, hchs]; rfl
  obtain ⟨hids, hnumbered, hclosing⟩ := h.ids_over fun x => x.id == id
  have hnotclosing : p ∉ s.closing := by
    intro hmem
    obtain ⟨id', cs', hx⟩ := h.closing.2 p hmem
    cases hp.symm.trans hx
  refine ⟨h.ok, ?_, ?_, ?_, ?_, ?_, ?_, ?_, hclosing, hids, hnumbered, h.drawn⟩
  · exact length_set.trans (h.length.trans (length_map _).symm)
  · intro q o' x hq hx
    obtain ⟨y, hy, rfl⟩ := Users.getElem?_over_eq_some hx
    exact h.cs_set (n := { o with closed := true }) ho rfl q o' y hq hy
  · rw [Users.closed_over, hopen]
    rfl
  · intro hclosed
    rw [Users.closed_over, hopen] at hclosed
    cases hclosed
  · intro i q
    simp only [Users.active_over, beq_eq_false_iff_ne]
    rw [update_apply]
    by_cases hi : i = id
    · simp [hi]
    · simp [hi, h.sub]
  · intro c i q
    have hold := h.listed c i q
    rw [listed_eq hchs] at hold
    simp only [Users.active_over, beq_eq_false_iff_ne]
    rw [listed_eq rfl, entry_foldl fun chs => entry_leave chs id]
    by_cases hi : i = id
    · subst hi
      -- no other subscription has this id, and this one lists only its own channels
      have hnone : ¬ (entry chs c i = some q ∧ c ∉ cs) := by
        rintro ⟨hq, hc⟩
        obtain ⟨cs', hq', hc'⟩ := hold.mp hq
        obtain rfl := Users.active_inj h hp hq'
        cases hp.symm.trans hq'
        exact hc hc'
      by_cases hc : c ∈ cs
      · simp [hc]
      · simp [hc]
        intro hq
        exact hnone ⟨hq, hc⟩
    · simp [hi, hold]
  · intro q o' x hq hx
    obtain ⟨y, hy, rfl⟩ := Users.getElem?_over_eq_some hx
    rcases of_getElem?_set hq with ⟨rfl, rfl⟩ | ⟨hqp, hq⟩
    · cases hp.symm.trans hy
      simp [hnotclosing]
    · have hid : y.id ≠ id := fun hid => hqp (h.ids q p y _ hy hp hid)
      have hold := h.open_iff q o' y hq hy
      simp [hid, hold]

theorem Inv.remove (hchs : s.chs = some chs) (id : Nat) :
    Inv (s.remove id) (u.over fun x => x.id == id) ∧ (s.remove id).chs.isSome = true ∧
      (s.remove id).cnt = s.cnt := by
  cases hsub : s.sub id with
  | none =>
    have hsame : s.remove id = s := by
      unfold Subs.remove
      rw [hsub]
    rw [hsame]
    refine ⟨h.over_none fun p i cs hp => ?_, by rw [hchs]; rfl, rfl⟩
    rw [beq_eq_false_iff_ne]
    rintro rfl
    have := (h.sub i p).mpr ⟨cs, hp⟩
    rw [hsub] at this
    cases this
  | some p =>
    obtain ⟨cs, hp⟩ := (h.sub id p).mp hsub
    obtain ⟨o, ho, hopen, hcs⟩ := h.open_of_active hp
    have heq : s.remove id = { s with
        chs := some (cs.foldl (Subs.leave id) chs)
        objects := s.objects.set p { o with closed := true }
        sub := update s.sub id none } := by
      unfold Subs.remove Subs.closeCh
      rw [hsub]
      dsimp only
      rw [ho]
      dsimp only
      rw [if_neg (by rw [hopen]; decide), hchs]
      simp only [map_some, getD_some, hcs]
    rw [heq]
    exact ⟨h.remove_active hchs hp ho, rfl, rfl⟩

theorem Inv.visit_remove (hopen : s.chs.isSome = true) (sub : PubSubSubscription) (id : Nat) :
    Inv (Subs.visit sub.channel (fun s id p => (s.tell p sub).remove id) s id)
      (u.over fun x => x.id == id && x.cs.contains sub.channel) ∧
    (Subs.visit sub.channel (fun s id p => (s.tell p sub).remove id) s id).chs.isSome = true ∧
    (Subs.visit sub.channel (fun s id p => (s.tell p sub).remove id) s id).cnt = s.cnt := by
  unfold Subs.visit
  cases hid : s.listed sub.channel id with
  | none =>
    refine ⟨h.over_none fun p i cs hp => ?_, hopen, rfl⟩
    rw [Bool.and_eq_false_iff, beq_eq_false_iff_ne]
    by_cases hi : i = id
    · subst hi
      right
      rw [← Bool.not_eq_true, contains_iff_mem]
      intro hc
      have := (h.listed sub.channel i p).mpr ⟨cs, hp, hc⟩
      rw [hid] at this
      cases this
    · exact Or.inl hi
  | some p =>
    obtain ⟨cs, hp, hc⟩ := (h.listed sub.channel id p).mp hid
    obtain ⟨htell, hchs, hcnt⟩ := h.tell hp sub
    obtain ⟨chs, hsome⟩ := isSome_iff_exists.mp hopen
    obtain ⟨hinv, hstill, hcnt'⟩ := htell.remove (hchs.trans hsome) id
    -- of the subscriptions only this one has the id, and it lists the channel
    have hsame : u.over (fun x => x.id == id && x.cs.contains sub.channel) =
        u.over fun x => x.id == id := by
      apply Users.over_congr
      intro q i cs' hq
      by_cases hi : i = id
      · subst hi
        obtain rfl := Users.active_inj h hp hq
        cases hp.symm.trans hq
        rw [contains_iff_mem.mpr hc, Bool.and_true]
      · rw [beq_eq_false_iff_ne.mpr hi, Bool.false_and]
    rw [hsame]
    exact ⟨hinv, hstill, hcnt'.trans hcnt⟩

theorem foldl_remove (hopen : s.chs.isSome = true) (sub : PubSubSubscription) (order : List Nat) :
    Inv (order.foldl (Subs.visit sub.channel fun s id p => (s.tell p sub).remove id) s)
      (u.over fun x => order.contains x.id && x.cs.contains sub.channel) ∧
    (order.foldl (Subs.visit sub.channel fun s id p => (s.tell p sub).remove id) s).chs.isSome
      = true := by
  induction order generalizing s u with
  | nil => exact ⟨h.over_none fun _ _ _ _ => rfl, hopen⟩
  | cons id order ih =>
    rw [foldl_cons]
    obtain ⟨hturn, hstill, _⟩ := h.visit_remove hopen sub id
    obtain ⟨hrest, hend⟩ := ih hturn hstill
    rw [Users.over_over _ _ _ (fun _ _ => rfl)] at hrest
    refine ⟨?_, hend⟩
    have hsame : (u.over fun x => (id :: order).contains x.id && x.cs.contains sub.channel) =
        u.over fun x => x.id == id && x.cs.contains sub.channel ||
          (order.contains x.id && x.cs.contains sub.channel) := by
      apply Users.over_congr
      intro p i cs _
      rw [contains_cons, Bool.and_or_distrib_right]
    rw [hsame]
    exact hrest

theorem Inv.mem_order {channel : Bytes} (horder : Ranges s.cnt (s.listed channel) order)
    (hp : u.Active p id cs) (hc : channel ∈ cs) : id ∈ order := by
  apply horder.2.2 id
  · have hle := (h.numbered _ (mem_of_getElem? hp)).2.1
    exact mem_range.mpr (Nat.lt_succ_of_le hle)
  · rw [(h.listed channel id p).mpr ⟨cs, hp, hc⟩]
    exact some_ne_none p

theorem Inv.drop_channel (channel : Bytes) (hnone : ∀ p id cs, u.Active p id cs → channel ∉ cs) :
    Inv { s with chs := s.chs.map fun chs => update chs channel none } u := by
  cases hchs : s.chs with
  | none =>
    rw [map_none, ← hchs]
    exact h
  | some chs =>
    refine { h with closed := ?_, listed := ?_ }
    · rw [h.closed, hchs]
      rfl
    · intro c id p
      have hold := h.listed c id p
      unfold Subs.listed at hold ⊢
      rw [hchs] at hold
      dsimp only [map_some] at hold ⊢
      by_cases hc : c = channel
      · subst hc
        rw [update_self]
        exact ⟨nofun, fun ⟨cs, hp, hmem⟩ => absurd hmem (hnone p id cs hp)⟩
      · rw [update_of_ne hc]
        exact hold

theorem Inv.unsubscribe (sub : PubSubSubscription)
    (horder : Ranges s.cnt (s.listed sub.channel) order) :
    Inv (s.unsubscribe sub order) (u.over fun x => x.cs.contains sub.channel) := by
  unfold Subs.unsubscribe
  by_cases hcnt : s.cnt = 0
  · rw [if_pos hcnt]
    apply h.over_none
    intro p id cs hp
    have := h.numbered _ (mem_of_getElem? hp)
    omega
  · rw [if_neg hcnt]
    have hsame : (u.over fun x => x.cs.contains sub.channel) =
        u.over fun x => order.contains x.id && x.cs.contains sub.channel := by
      apply Users.over_congr
      intro p id cs hp
      by_cases hc : sub.channel ∈ cs
      · rw [contains_iff_mem.mpr (h.mem_order horder hp hc), Bool.true_and]
      · rw [← contains_iff_mem, Bool.not_eq_true] at hc
        rw [hc, Bool.and_false]
    have hgone : ∀ p id cs, (u.over fun x => x.cs.contains sub.channel).Active p id cs →
        sub.channel ∉ cs := by
      intro p id cs hp
      rw [Users.active_over] at hp
      rw [← contains_iff_mem, Bool.not_eq_true]
      exact hp.2
    apply Inv.drop_channel _ sub.channel hgone
    cases hchs : s.chs with
    | none =>
      -- after a close the loop finds nothing
      have hempty : order = [] := by
        cases order with
        | nil => rfl
        | cons id order =>
          have hid := horder.2.1 id mem_cons_self
          unfold Subs.listed at hid
          rw [hchs] at hid
          exact absurd rfl hid
      rw [hempty]
      exact h.over_none fun p id cs hp => absurd hp (h.none_active hchs p id cs)
    | some chs =>
      rw [hsame]
      exact (foldl_remove h (by rw [hchs]; rfl) sub order).1

/-! ## The other steps -/

theorem Inv.draw : Inv { s with cnt := s.cnt + 1, drawn := (s.cnt + 1) :: s.drawn } u := by
  refine { h with numbered := ?_, drawn := ?_ }
  · intro x hx
    obtain ⟨hpos, hle, hnot⟩ := h.numbered x hx
    refine ⟨hpos, Nat.le_succ_of_le hle, ?_⟩
    rw [mem_cons, not_or]
    exact ⟨by omega, hnot⟩
  · refine ⟨nodup_cons.mpr ⟨?_, h.drawn.1⟩, ?_⟩
    · intro hmem
      have := (h.drawn.2 _ hmem).2
      omega
    · intro id hid
      dsimp only at hid ⊢
      rcases mem_cons.mp hid with rfl | hid
      · omega
      · have := h.drawn.2 id hid
        omega

theorem Inv.subscribe (hid : id ∈ s.drawn) (channels : List Bytes) (fn : Bool) :
    Inv ({ s with drawn := s.drawn.erase id }.subscribe id channels fn)
      (if u.closed then u else { u with subs := u.subs ++ [⟨id, channels, true⟩] }) := by
  have hdrawn : (s.drawn.erase id).Nodup ∧ ∀ i ∈ s.drawn.erase id, 0 < i ∧ i ≤ s.cnt :=
    ⟨h.drawn.1.erase id, fun i hi => h.drawn.2 i (mem_of_mem_erase hi)⟩
  have hnumbered : ∀ x ∈ u.subs, 0 < x.id ∧ x.id ≤ s.cnt ∧ x.id ∉ s.drawn.erase id := by
    intro x hx
    obtain ⟨hpos, hle, hnot⟩ := h.numbered x hx
    exact ⟨hpos, hle, fun hmem => hnot (mem_of_mem_erase hmem)⟩
  unfold Subs.subscribe
  cases hchs : s.chs with
  | none =>
    have hclosed : u.closed = true := by rw [h.closed, hchs]; rfl
    rw [if_pos hclosed]
    refine { h with closed := ?_, listed := ?_, numbered := ?_, drawn := hdrawn }
    · rw [hclosed]
      rfl
    · intro c i p
      rw [← h.listed c i p, Subs.listed, Subs.listed, hchs]
    · exact hnumbered
  | some chs =>
    have hopen : u.closed = false := by rw [h.closed, hchs]; rfl
    rw [if_neg (by rw [hopen]; decide)]
    have hnew : ∀ x ∈ u.subs, x.id ≠ id := fun x hx heq => (h.numbered x hx).2.2 (heq ▸ hid)
    have hlen := h.length
    have hactive (p i : Nat) (cs : List Bytes) :
        Users.Active { u with subs := u.subs ++ [⟨id, channels, true⟩] } p i cs ↔
          u.Active p i cs ∨ p = s.objects.length ∧ i = id ∧ cs = channels := by
      unfold Users.Active
      rw [getElem?_snoc_iff, hlen]
      simp [eq_comm]
    refine ⟨h.ok, ?_, ?_, ?_, ?_, ?_, ?_, ?_, ⟨h.closing.1, ?_⟩, ?_, ?_, hdrawn⟩
    · simp [hlen]
    · intro p o x ho hx
      rcases getElem?_snoc_both hlen ho hx with ⟨ho, hx⟩ | ⟨rfl, rfl⟩
      · exact h.cs p o x ho hx
      · rfl
    · exact hopen
    · intro hclosed
      rw [hopen] at hclosed
      cases hclosed
    · intro i p
      simp only [hactive]
      rw [update_apply]
      by_cases hi : i = id
      · subst hi
        have hold : ∀ cs, ¬ u.Active p i cs := fun cs hp =>
          hnew _ (mem_of_getElem? hp) rfl
        simp [hold, eq_comm]
      · simp [hi, h.sub]
    · intro c i p
      have hold := h.listed c i p
      rw [listed_eq hchs] at hold
      simp only [hactive]
      rw [listed_eq rfl, entry_foldl fun chs => entry_enter chs id _]
      by_cases hi : i = id
      · subst hi
        have hnone : ∀ cs, ¬ u.Active p i cs := fun cs hp =>
          hnew _ (mem_of_getElem? hp) rfl
        simp only [hnone, false_and, exists_false, iff_false] at hold
        by_cases hc : c ∈ channels
        · simp [hc, hnone, eq_comm]
        · simp [hc, hnone, hold]
      · simp [hi, hold]
    · intro p o x ho hx
      rcases getElem?_snoc_both hlen ho hx with ⟨ho, hx⟩ | ⟨rfl, rfl⟩
      · exact h.open_iff p o x ho hx
      · simp
    · intro p hp
      obtain ⟨i, cs, hx⟩ := h.closing.2 p hp
      exact ⟨i, cs, (getElem?_snoc_iff _ _ _ _).mpr (Or.inl hx)⟩
    · intro p q x y hx hy hxy
      rcases (getElem?_snoc_iff _ _ _ _).mp hx with hx | ⟨hp, rfl⟩ <;>
        rcases (getElem?_snoc_iff _ _ _ _).mp hy with hy | ⟨hq, rfl⟩
      · exact h.ids p q x y hx hy hxy
      · exact absurd hxy (hnew x (mem_of_getElem? hx))
      · exact absurd hxy.symm (hnew y (mem_of_getElem? hy))
      · rw [hp, hq]
    · intro x hx
      rcases mem_append.mp hx with hx | hx
      · exact hnumbered x hx
      · rw [mem_singleton] at hx
        rw [hx]
        exact ⟨(h.drawn.2 id hid).1, (h.drawn.2 id hid).2, h.drawn.1.not_mem_erase⟩

theorem Inv.cancel (id : Nat) : Inv (s.cancel id) (u.over fun x => x.id == id) := by
  unfold Subs.cancel
  cases hchs : s.chs with
  | none => exact h.over_none fun p i cs hp => absurd hp (h.none_active hchs p i cs)
  | some chs => exact (h.remove hchs id).1

/-- The locked section of `Close` leaves the channels that are open to be closed. -/
theorem Inv.close : Inv s.close { u.over fun _ => true with closed := true } := by
  obtain ⟨hids, hnumbered, hclosing⟩ := h.ids_over fun _ => true
  have hinactive : ∀ p id cs, ¬ (u.over fun _ => true).Active p id cs := by
    intro p id cs hp
    rw [Users.active_over] at hp
    cases hp.2
  have hmem (p : Nat) : p ∈ (range (s.cnt + 1)).filterMap s.sub ↔ ∃ id cs, u.Active p id cs := by
    rw [mem_filterMap]
    constructor
    · rintro ⟨id, _, hsub⟩
      exact ⟨id, (h.sub id p).mp hsub⟩
    · rintro ⟨id, cs, hp⟩
      have hle := (h.numbered _ (mem_of_getElem? hp)).2.1
      exact ⟨id, mem_range.mpr (Nat.lt_succ_of_le hle), (h.sub id p).mpr ⟨cs, hp⟩⟩
  refine ⟨h.ok, ?_, ?_, rfl, fun _ => hinactive, ?_, ?_, ?_, ⟨?_, ?_⟩, hids, hnumbered, h.drawn⟩
  · exact h.length.trans (length_map _).symm
  · intro p o x ho hx
    obtain ⟨y, hy, rfl⟩ := Users.getElem?_over_eq_some hx
    exact h.cs p o y ho hy
  · exact fun id p => ⟨nofun, fun ⟨cs, hp⟩ => absurd hp (hinactive p id cs)⟩
  · exact fun c id p => ⟨nofun, fun ⟨cs, hp, _⟩ => absurd hp (hinactive p id cs)⟩
  · intro p o x ho hx
    obtain ⟨y, hy, rfl⟩ := Users.getElem?_over_eq_some hx
    have hold := h.open_iff p o y ho hy
    unfold Subs.close
    rw [hold, mem_append, hmem]
    obtain ⟨id, cs, active⟩ := y
    unfold Users.Active
    rw [hy]
    cases active <;> simp
  · unfold Subs.close
    rw [nodup_append]
    refine ⟨h.closing.1, ?_, ?_⟩
    · apply Nodup.filterMap _ nodup_range
      intro i j p hi hj
      obtain ⟨cs, hp⟩ := (h.sub i p).mp hi
      obtain ⟨cs', hp'⟩ := (h.sub j p).mp hj
      cases hp.symm.trans hp'
      rfl
    · rintro p hp q hq rfl
      obtain ⟨id, cs, hx⟩ := h.closing.2 p hp
      obtain ⟨id', cs', hx'⟩ := (hmem p).mp hq
      cases hx.symm.trans hx'
  · intro p hp
    rcases mem_append.mp hp with hp | hp
    · exact hclosing.2 p hp
    · obtain ⟨id, cs, hx⟩ := (hmem p).mp hp
      refine ⟨id, cs, ?_⟩
      rw [Users.getElem?_over, hx]
      rfl

theorem Inv.closeCh (hp : p ∈ s.closing) :
    Inv ({ s with closing := s.closing.erase p }.closeCh p) u := by
  obtain ⟨id, cs, hx⟩ := h.closing.2 p hp
  obtain ⟨o, ho⟩ := h.exists_object hx
  have hopen : o.closed = false := (h.open_iff p o _ ho hx).mpr (Or.inr hp)
  unfold Subs.closeCh
  rw [ho]
  dsimp only
  rw [if_neg (by rw [hopen]; decide)]
  refine { h with
    length := length_set.trans h.length, cs := h.cs_set ho rfl, open_iff := ?_, closing := ?_ }
  · intro q o' x hq hy
    rcases of_getElem?_set hq with ⟨rfl, rfl⟩ | ⟨hqp, hq⟩
    · cases hx.symm.trans hy
      simp [h.closing.1.not_mem_erase]
    · rw [h.open_iff q o' x hq hy, mem_erase_of_ne hqp]
  · exact ⟨h.closing.1.erase p, fun q hq => h.closing.2 q (mem_of_mem_erase hq)⟩

/-- `Publish` sends the message once to every active subscription that lists the channel, and to no
other. -/
theorem Inv.publish (channel : Bytes) (msg : PubSubMessage)
    (horder : Ranges s.cnt (s.listed channel) order) : Inv (s.publish channel msg order) u ∧
    ∀ (p : Nat) o x, s.objects[p]? = some o → u.subs[p]? = some x →
      (s.publish channel msg order).objects[p]? =
        some (if x.active && x.cs.contains channel then { o with sent := o.sent ++ [msg] } else o) := by
  unfold Subs.publish
  by_cases hcnt : s.cnt = 0
  · rw [if_pos hcnt]
    refine ⟨h, fun p o x ho hx => ?_⟩
    have := h.numbered x (mem_of_getElem? hx)
    omega
  · rw [if_neg hcnt]
    obtain ⟨hinv, hobjects⟩ := foldl_send h channel msg horder.1
    refine ⟨hinv, fun p o x ho hx => ?_⟩
    rw [hobjects p, ho, map_some]
    congr 1
    have hiff : (∃ id ∈ order, s.listed channel id = some p) ↔
        (x.active && x.cs.contains channel) = true := by
      rw [Bool.and_eq_true, contains_iff_mem]
      constructor
      · rintro ⟨id, _, hid⟩
        obtain ⟨cs, hp, hc⟩ := (h.listed channel id p).mp hid
        cases hx.symm.trans hp
        exact ⟨rfl, hc⟩
      · intro hactive
        obtain ⟨id, cs, active⟩ := x
        obtain ⟨rfl, hc⟩ := hactive
        exact ⟨id, h.mem_order horder hx hc, (h.listed channel id p).mpr ⟨cs, hx, hc⟩⟩
    simp only [hiff]

/-! ## Whole runs -/

theorem inv_apply {t : Subs} (e : Event) (hstep : apply s e = some t) : Inv t (u.step e) := by
  cases e <;> dsimp only [apply] at hstep
  all_goals try (rw [ite_none_right_eq_some] at hstep; obtain ⟨hc, hstep⟩ := hstep)
  all_goals cases hstep
  case draw => exact h.draw
  case subscribe id channels fn => exact h.subscribe hc channels fn
  case cancel id => exact h.cancel id
  case publish channel msg order => exact (h.publish channel msg hc).1
  case confirm sub order =>
    unfold Subs.confirm
    split
    · exact h
    · exact foldl_tell h sub.channel sub order
  case unsubscribe sub order => exact h.unsubscribe sub hc
  case close => exact h.close
  case closeCh p => exact h.closeCh hc

theorem inv_step {t : Subs} (e : Event) (hstep : step s e = some t) : Inv t (u.step e) := by
  unfold step at hstep
  rw [h.ok] at hstep
  exact inv_apply h e hstep

omit h

theorem inv_run (hrun : run both ({}, {}) events = some (s, u)) : Inv s u := by
  have hkeeps : ∀ (s : Subs × Users) (e : Event) (t : Subs × Users), Inv s.1 s.2 →
      both s e = some t → Inv t.1 t.2 := by
    intro s e t h hstep
    obtain ⟨t', ht, rfl⟩ := map_eq_some_iff.mp hstep
    exact inv_step h e ht
  exact run_invariant both hkeeps inv_new hrun

theorem exists_ranges (cnt : Nat) (m : Ids) : ∃ order, Ranges cnt m order := by
  refine ⟨(range (cnt + 1)).filter fun id => (m id).isSome, nodup_range.filter _, ?_, ?_⟩
  · intro id hid hnone
    have := (mem_filter.mp hid).2
    rw [hnone] at this
    cases this
  · intro id hid hsome
    exact mem_filter.mpr ⟨hid, isSome_iff_ne_none.mpr hsome⟩

end Invariant

/-- In every run nothing panics, so no channel is closed twice or sent to after it was closed; a
`Publish` runs and sends the message once to exactly the active subscriptions that list the
channel; and when a `Close` is done, every channel is closed. -/
theorem table_serves_users {s : Subs} (hrun : run both ({}, {}) events = some (s, u)) :
    s.panicked = false ∧ s.objects.length = u.subs.length ∧
    (∀ channel msg, (∃ order t, step s (.publish channel msg order) = some t) ∧
      ∀ order t, step s (.publish channel msg order) = some t → t.panicked = false ∧
        ∀ (p : Nat) o x, s.objects[p]? = some o → u.subs[p]? = some x →
          t.objects[p]? = some
            (if x.active && x.cs.contains channel then { o with sent := o.sent ++ [msg] } else o)) ∧
    (u.closed = true → s.closing = [] → ∀ o ∈ s.objects, o.closed = true) := by
  have h := inv_run hrun
  refine ⟨h.ok, h.length, fun channel msg => ⟨?_, ?_⟩, ?_⟩
  · obtain ⟨order, horder⟩ := exists_ranges s.cnt (s.listed channel)
    refine ⟨order, s.publish channel msg order, ?_⟩
    rw [step, h.ok, if_neg Bool.false_ne_true, apply, if_pos horder]
  · intro order t hstep
    have ht := inv_step h _ hstep
    rw [step, h.ok, if_neg Bool.false_ne_true, apply] at hstep
    obtain ⟨horder, hpub⟩ := ite_none_right_eq_some.mp hstep
    rw [← some.inj hpub] at ht ⊢
    exact ⟨ht.ok, (h.publish channel msg horder).2⟩
  · intro hclosed hdone o ho
    obtain ⟨p, hp⟩ := mem_iff_getElem?.mp ho
    have hlt := (List.getElem?_eq_some_iff.mp hp).1
    rw [h.length] at hlt
    have hx : u.subs[p]? = some u.subs[p] := getElem?_eq_getElem hlt
    rw [← Bool.not_eq_false, h.open_iff p o _ hp hx, hdone]
    intro hopen
    have hactive : u.subs[p].active = true := hopen.resolve_right not_mem_nil
    apply h.ended hclosed p u.subs[p].id u.subs[p].cs
    rw [Users.Active, hx, ← hactive]

theorem table_serves_users_overlapping : ∃ s, run both ({}, {})
      [.draw, .draw, .subscribe 2 [[1], [2], [1]] true, .subscribe 1 [[2]] false,
        .publish [2] ⟨[], [2], [7]⟩ [2, 1], .unsubscribe ⟨[], [1], 0⟩ [2], .cancel 2,
        .publish [2] ⟨[], [2], [8]⟩ [1], .close, .cancel 1, .closeCh 1] = some s ∧
    s.1.panicked = false ∧ ∀ o ∈ s.1.objects, o.closed = true := by
  refine (exists_run both (P := fun s => s.2.closed = true ∧ s.1.closing = []) _ _ ?_).imp
    fun s ⟨hrun, hend⟩ => ⟨hrun, ?_⟩
  · decide +kernel
  · have h := table_serves_users (s := s.1) (u := s.2) hrun
    exact ⟨h.1, h.2.2.2 hend.1 hend.2⟩

end Rueidis.PubSub
