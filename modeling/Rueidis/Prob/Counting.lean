import Rueidis.Prob.Bloom

/-!
# The counting Bloom filter

`countingbloomfilter.go`: a hash with a counter for each index, and a counter of items.  The remove
script works on a table of the counters it has read: a key is taken off index by index, put back
when a counter falls below zero, and only the indexes of the keys that went through are then
decreased.

The counters of the server are integers without bound; each changes by one at a time.
-/

namespace Rueidis.Prob

open List Option Machine

variable {n : Nat} {r : ℝ} {name : Bytes}

/-- The fields of the filter key and the counter key; `none` when there is no such field or key. -/
structure Counters where
  filter : Nat → Option Int := fun _ => none
  counter : Option Int := none

def value (h : Nat → Option Int) (x : Nat) : Int := (h x).getD 0

def hincrby (n : Int) (h : Nat → Option Int) (x : Nat) : Nat → Option Int :=
  Function.update h x (some (value h x + n))

/-! ## The scripts -/

def countingBloomFilterAddMultiScript (itemCount : Nat) (xs : List Nat) (s : Counters) : Counters :=
  { filter := xs.foldl (hincrby 1) s.filter
    counter := some (s.counter.getD 0 + itemCount) }

/-- The values of a numeric `for` of Lua; `none` when the loop does not end. -/
def forValues (start limit step : Nat) : Option (List Nat) :=
  if step = 0 then if limit ≤ start then none else some []
  else some ((List.range ((limit + step - start) / step)).map fun n => start + n * step)

/-- The table `indexCounter` after its loop: a counter is read once. -/
def readCounters (h : Nat → Option Int) (xs : List Nat) : Nat → Option Int :=
  xs.foldl (fun t x => if t x = none then Function.update t x (some (value h x)) else t) fun _ => none

/-- The inner loop over the indexes of one key: whether all counters stayed at zero or above, the
table, and the indexes in `temp`. -/
def takeOff : (t : Nat → Option Int) → (xs temp : List Nat) → Bool × (Nat → Option Int) × List Nat
  | t, [], temp => (true, t, temp)
  | t, x :: xs, temp =>
    let t := hincrby (-1) t x
    if value t x < 0 then (false, t, temp ++ [x]) else takeOff t xs (temp ++ [x])

structure Removing where
  indexCounter : Nat → Option Int
  decreaseIndexes : List Nat := []
  deleteItemCount : Nat := 0

/-- The body of the loop over the keys; the indexes that are put back, up to `rollbackIndex`, are
those in `temp`. -/
def removeKey (r : Removing) (xs : List Nat) : Removing :=
  match takeOff r.indexCounter xs [] with
  | (true, t, temp) =>
    { indexCounter := t
      decreaseIndexes := r.decreaseIndexes ++ temp
      deleteItemCount := r.deleteItemCount + 1 }
  | (false, t, temp) => { r with indexCounter := temp.foldl (hincrby 1) t }

/-- `none` when the loop over the keys does not end. -/
def countingBloomFilterRemoveMultiScript (xs : List Nat) (hashIterations : Nat) (s : Counters) :
    Option Counters :=
  match forValues 1 xs.length hashIterations with
  | none => none
  | some is =>
    let r := is.foldl (fun r i => removeKey r ((xs.drop (i - 1)).take hashIterations))
      { indexCounter := readCounters s.filter xs }
    some { filter := r.decreaseIndexes.foldl (hincrby (-1)) s.filter
           counter := some (s.counter.getD 0 - r.deleteItemCount) }

/-! ## The calls -/

structure CountingBloomFilter where
  hash : Hash
  hashIterations : Nat
  size : UInt64
  size_ne_zero : size ≠ 0

namespace CountingBloomFilter

variable (f : CountingBloomFilter)

def indexesOf (key : Bytes) : List Nat := Prob.indexesOf f.hash f.hashIterations f.size key

def indexes (keys : List Bytes) : List Nat := keys.flatMap f.indexesOf

def addMulti (keys : List Bytes) (s : Counters) : Counters :=
  if keys.length = 0 then s else countingBloomFilterAddMultiScript keys.length (f.indexes keys) s

def removeMulti (keys : List Bytes) (s : Counters) : Option Counters :=
  if keys.length = 0 then some s
  else countingBloomFilterRemoveMultiScript (f.indexes keys) f.hashIterations s

/-- `HMGET` of the indexes, which is an error without a field, and the loop over the reply; a number
below zero makes `AsUint64` fail.  `none` is an error. -/
def replies {σ : Type} (step : σ → Option Int → σ) (start : σ) (keys : List Bytes) (s : Counters) :
    Option (List σ) :=
  if keys.length = 0 then some []
  else
    let messages := (f.indexes keys).map s.filter
    if messages.length = 0 then none
    else if messages.all fun message => decide (0 ≤ message.getD 0) then
      some (Groups.scan f.hashIterations step start (fun acc => acc) 0 start messages)
    else none

def existsMulti (keys : List Bytes) (s : Counters) : Option (List Bool) :=
  f.replies
    (fun isExist message =>
      match message with
      | none => false
      | some cnt => if cnt = 0 then false else isExist)
    true keys s

def maxUint64 : Int := 18446744073709551615

def itemMinCountMulti (keys : List Bytes) (s : Counters) : Option (List Int) :=
  f.replies
    (fun minCount message =>
      match message with
      | none => 0
      | some cnt => if cnt < minCount then cnt else minCount)
    maxUint64 keys s

def count (s : Counters) : Option Int :=
  match s.counter with
  | none => some 0
  | some n => if 0 ≤ n then some n else none

end CountingBloomFilter

/-- The filter with the multiset of the keys that were added and not removed, and whether every key
was in it when it was removed. -/
structure CountingRun where
  counters : Counters := {}
  present : Multiset Bytes := 0
  proper : Bool := true

inductive CountingCall where
  | addMulti (keys : List Bytes)
  | removeMulti (keys : List Bytes)
deriving DecidableEq, Repr

def CountingBloomFilter.step (f : CountingBloomFilter) (s : CountingRun) :
    CountingCall → Option CountingRun
  | .addMulti keys =>
    some { s with
      counters := f.addMulti keys s.counters
      present := s.present + (keys : Multiset Bytes) }
  | .removeMulti keys =>
    (f.removeMulti keys s.counters).map fun counters =>
      { counters := counters
        present := s.present - (keys : Multiset Bytes)
        proper := s.proper && decide ((keys : Multiset Bytes) ≤ s.present) }

/-! ## Counters -/

theorem value_hincrby (n : Int) (h : Nat → Option Int) (x y : Nat) :
    value (hincrby n h x) y = value h y + if x = y then n else 0 := by
  unfold hincrby
  by_cases hxy : x = y
  · subst hxy
    rw [value, Function.update_self, if_pos rfl]
    rfl
  · rw [value, Function.update_of_ne (Ne.symm hxy), if_neg hxy, Int.add_zero]
    rfl

theorem count_cons_int (x y : Nat) (ys : List Nat) :
    ((x :: ys).count y : Int) = ys.count y + if x = y then 1 else 0 := by
  rw [count_cons]
  by_cases hxy : x = y <;> simp [hxy]

theorem value_foldl_hincrby (n : Int) (xs : List Nat) (h : Nat → Option Int) (y : Nat) :
    value (xs.foldl (hincrby n) h) y = value h y + n * xs.count y := by
  induction xs generalizing h with
  | nil => simp
  | cons x xs ih =>
    rw [foldl_cons, ih, value_hincrby, count_cons_int, Int.mul_add, mul_ite,
      Int.mul_one, Int.mul_zero]
    omega

variable {x : Nat} {xs : List Nat} {keys : List Bytes} {s : Counters}

theorem sum_hincrby {m : Nat} (hx : x < m) (n : Int) (h : Nat → Option Int) :
    ∑ y ∈ Finset.range m, value (hincrby n h x) y = ∑ y ∈ Finset.range m, value h y + n := by
  simp only [value_hincrby, Finset.sum_add_distrib, Finset.sum_ite_eq, Finset.mem_range, if_pos hx]

theorem sum_foldl_hincrby {m : Nat} (n : Int) (hxs : ∀ x ∈ xs, x < m) (h : Nat → Option Int) :
    ∑ y ∈ Finset.range m, value (xs.foldl (hincrby n) h) y =
      ∑ y ∈ Finset.range m, value h y + n * xs.length := by
  induction xs generalizing h with
  | nil => simp
  | cons x xs ih =>
    rw [forall_mem_cons] at hxs
    rw [foldl_cons, ih hxs.2, sum_hincrby hxs.1, length_cons]
    push_cast
    rw [Int.mul_add]
    omega

theorem foldl_hincrby_of_notMem (n : Int) {y : Nat} (hy : y ∉ xs) (h : Nat → Option Int) :
    xs.foldl (hincrby n) h y = h y := by
  induction xs generalizing h with
  | nil => rfl
  | cons x xs ih =>
    rw [mem_cons, not_or] at hy
    rw [foldl_cons, ih hy.2, hincrby, Function.update_of_ne hy.1]

/-! ## The simulated removal -/

theorem readCounters_eq (h : Nat → Option Int) (xs : List Nat) (y : Nat) :
    readCounters h xs y = if y ∈ xs then some (value h y) else none := by
  induction xs using reverseRecOn generalizing y with
  | nil => rfl
  | append_singleton xs x ih =>
    rw [readCounters, foldl_append]
    change (if readCounters h xs x = none then Function.update (readCounters h xs) x _
      else readCounters h xs) y = _
    by_cases hyx : y = x
    · subst hyx
      by_cases hy : y ∈ xs <;> simp [ih, hy]
    · by_cases hx : x ∈ xs <;> simp [ih, hyx, hx]

theorem value_readCounters (h : Nat → Option Int) (xs : List Nat) (y : Nat) :
    value (readCounters h xs) y = if y ∈ xs then value h y else 0 := by
  rw [value, readCounters_eq]
  split <;> rfl

theorem readCounters_nonneg {h : Nat → Option Int} (hh : ∀ y, 0 ≤ value h y) (xs : List Nat) (y : Nat) :
    0 ≤ value (readCounters h xs) y := by
  rw [value_readCounters]
  split
  · exact hh y
  · exact Int.le_refl 0

/-- All of `xs` is taken off, or `ys` up to the first counter that falls below zero. -/
theorem takeOff_spec (t : Nat → Option Int) (ht : ∀ y, 0 ≤ value t y) (xs temp : List Nat) :
    ∃ ok t' ys, takeOff t xs temp = (ok, t', temp ++ ys) ∧
      (∀ y, value t' y = value t y - ys.count y) ∧
      if ok then ys = xs ∧ ∀ y, 0 ≤ value t' y else ∃ y, value t y < xs.count y := by
  induction xs generalizing t temp with
  | nil => exact ⟨true, t, [], by rw [takeOff, append_nil], fun y => by simp, rfl, ht⟩
  | cons x xs ih =>
    have hone : ∀ y, value (hincrby (-1) t x) y = value t y - if x = y then 1 else 0 := by
      intro y
      rw [value_hincrby]
      split <;> omega
    rw [takeOff]
    by_cases hneg : value (hincrby (-1) t x) x < 0
    · rw [if_pos hneg]
      rw [hone, if_pos rfl] at hneg
      refine ⟨false, _, [x], rfl, fun y => ?_, x, ?_⟩
      · rw [hone, count_cons_int, count_nil]
        omega
      · rw [count_cons_int, if_pos rfl]
        omega
    · rw [if_neg hneg]
      have hnext : ∀ y, 0 ≤ value (hincrby (-1) t x) y := by
        intro y
        by_cases hxy : x = y
        · subst hxy
          omega
        · rw [hone, if_neg hxy, Int.sub_zero]
          exact ht y
      obtain ⟨ok, t', ys, htake, hval, hok⟩ := ih _ hnext (temp ++ [x])
      refine ⟨ok, t', x :: ys, by rw [htake, append_assoc]; rfl, fun y => ?_, ?_⟩
      · rw [hval, hone, count_cons_int]
        omega
      · cases ok with
        | true => exact ⟨congrArg _ hok.1, hok.2⟩
        | false =>
          obtain ⟨y, hlt⟩ := hok
          refine ⟨y, ?_⟩
          rw [hone] at hlt
          rw [count_cons_int]
          omega

theorem removeKey_cases (r : Removing) (hr : ∀ y, 0 ≤ value r.indexCounter y) (xs : List Nat) :
    ∃ t, removeKey r xs = ⟨t, r.decreaseIndexes ++ xs, r.deleteItemCount + 1⟩ ∧
      (∀ y, 0 ≤ value t y) ∧ (∀ y, value t y = value r.indexCounter y - xs.count y) ∨
    removeKey r xs = { r with indexCounter := t } ∧ (∀ y, value t y = value r.indexCounter y) ∧
      ∃ y, value r.indexCounter y < xs.count y := by
  obtain ⟨ok, t, ys, htake, hval, hok⟩ := takeOff_spec r.indexCounter hr xs []
  unfold removeKey
  rw [htake]
  cases ok with
  | true =>
    obtain ⟨rfl, hpos⟩ := hok
    exact ⟨t, .inl ⟨rfl, hpos, hval⟩⟩
  | false =>
    refine ⟨_, .inr ⟨rfl, fun y => ?_, hok⟩⟩
    rw [nil_append, value_foldl_hincrby, hval]
    omega

/-- What the loop over the keys keeps: the table is what the counters read will be once the
collected indexes are decreased. -/
structure Simulated (v : Nat → Int) (k m : Nat) (r : Removing) : Prop where
  nonneg : ∀ y, 0 ≤ value r.indexCounter y
  table : ∀ y, value r.indexCounter y = v y - r.decreaseIndexes.count y
  items : r.decreaseIndexes.length = k * r.deleteItemCount
  bounded : ∀ x ∈ r.decreaseIndexes, x < m

section Loop

variable {v : Nat → Int} {k m : Nat} {r : Removing} {groups : List (List Nat)}

theorem Simulated.removeKey (h : Simulated v k m r) (hlen : xs.length = k) (hxs : ∀ x ∈ xs, x < m) :
    Simulated v k m (removeKey r xs) := by
  obtain ⟨t, ⟨hkey, hpos, hval⟩ | ⟨hkey, hval, -⟩⟩ := removeKey_cases r h.nonneg xs
  · rw [hkey]
    refine ⟨hpos, fun y => ?_, ?_, fun x hx => ?_⟩
    · rw [hval, h.table, count_append]
      omega
    · rw [length_append, h.items, hlen, Nat.mul_succ]
    · exact (mem_append.mp hx).elim (h.bounded x) (hxs x)
  · rw [hkey]
    exact { h with
      nonneg := fun y => hval y ▸ h.nonneg y
      table := fun y => (hval y).trans (h.table y) }

theorem Simulated.foldl_removeKey (h : Simulated v k m r)
    (hgroups : ∀ xs ∈ groups, xs.length = k ∧ ∀ x ∈ xs, x < m) :
    Simulated v k m (groups.foldl Prob.removeKey r) := by
  induction groups generalizing r with
  | nil => exact h
  | cons xs groups ih =>
    rw [forall_mem_cons] at hgroups
    exact ih (h.removeKey hgroups.1.1 hgroups.1.2) hgroups.2

theorem foldl_removeKey_of_count_le (hr : ∀ y, 0 ≤ value r.indexCounter y)
    (hle : ∀ y, (groups.flatten.count y : Int) ≤ value r.indexCounter y) :
    (groups.foldl removeKey r).decreaseIndexes = r.decreaseIndexes ++ groups.flatten := by
  induction groups generalizing r with
  | nil => exact (append_nil _).symm
  | cons xs groups ih =>
    simp only [flatten_cons, count_append, Nat.cast_add] at hle
    rw [foldl_cons]
    obtain ⟨t, ⟨hkey, hpos, hval⟩ | ⟨-, -, y, hlt⟩⟩ := removeKey_cases r hr xs
    · rw [hkey, ih hpos, flatten_cons, append_assoc]
      intro y
      have := hle y
      rw [hval]
      omega
    · have := hle y
      omega

end Loop

/-! ## One call -/

def weight (f : CountingBloomFilter) (keys : Multiset Bytes) (y : Nat) : Nat :=
  (keys.map fun key => (f.indexesOf key).count y).sum

section Calls

variable (f : CountingBloomFilter)

variable {key : Bytes}

theorem weight_add (keys keys' : Multiset Bytes) (y : Nat) :
    weight f (keys + keys') y = weight f keys y + weight f keys' y := by
  rw [weight, Multiset.map_add, Multiset.sum_add]
  rfl

theorem count_indexes (keys : List Bytes) (y : Nat) : (f.indexes keys).count y = weight f keys y := by
  rw [CountingBloomFilter.indexes, count_flatMap, weight, Multiset.map_coe, Multiset.sum_coe]
  rfl

theorem count_le_weight {y : Nat} (hy : y ∈ f.indexesOf key) (keys : Multiset Bytes) :
    keys.count key ≤ weight f keys y := by
  have hone : 1 ≤ (f.indexesOf key).count y := one_le_count_iff.mpr hy
  induction keys using Multiset.induction_on with
  | empty => exact Nat.zero_le _
  | cons key' keys ih =>
    rw [weight, Multiset.map_cons, Multiset.sum_cons, Multiset.count_cons]
    change _ ≤ _ + weight f keys y
    by_cases heq : key = key'
    · subst heq
      rw [if_pos rfl]
      omega
    · rw [if_neg heq]
      omega

theorem lt_size_of_mem_indexesOf (hx : x ∈ f.indexesOf key) : x < f.size.toNat := by
  obtain ⟨i, -, rfl⟩ := mem_map.mp hx
  have hpos : f.size.toNat ≠ 0 := fun h => f.size_ne_zero (UInt64.toNat_inj.mp h)
  rw [index, UInt64.toNat_mod]
  exact Nat.mod_lt _ (Nat.pos_of_ne_zero hpos)

theorem lt_size_of_mem_indexes (hx : x ∈ f.indexes keys) : x < f.size.toNat := by
  obtain ⟨key, -, hkey⟩ := mem_flatMap.mp hx
  exact lt_size_of_mem_indexesOf f hkey

theorem length_indexes (keys : List Bytes) :
    (f.indexes keys).length = keys.length * f.hashIterations := by
  rw [CountingBloomFilter.indexes, length_flatMap]
  simp [CountingBloomFilter.indexesOf]

def removing (keys : List Bytes) (s : Counters) : Removing :=
  (keys.map f.indexesOf).foldl removeKey { indexCounter := readCounters s.filter (f.indexes keys) }

variable {f}

theorem addMulti_eq (hkeys : keys ≠ []) (s : Counters) :
    f.addMulti keys s = countingBloomFilterAddMultiScript keys.length (f.indexes keys) s :=
  if_neg (by simpa using hkeys)

theorem removeMulti_eq (hk : 1 ≤ f.hashIterations) (hkeys : keys ≠ []) (s : Counters) :
    f.removeMulti keys s = some
      { filter := (removing f keys s).decreaseIndexes.foldl (hincrby (-1)) s.filter
        counter := some (s.counter.getD 0 - (removing f keys s).deleteItemCount) } := by
  have hrounds : ((f.indexes keys).length + f.hashIterations - 1) / f.hashIterations =
      keys.length := by
    rw [length_indexes, Nat.add_sub_assoc hk, Nat.add_comm,
      Nat.add_mul_div_right _ _ (by omega), Nat.div_eq_of_lt (by omega), Nat.zero_add]
  have hfor : forValues 1 (f.indexes keys).length f.hashIterations =
      some ((range keys.length).map fun n => 1 + n * f.hashIterations) := by
    rw [forValues, if_neg (by omega), hrounds]
  have hgroups := Groups.map_take_drop_flatMap (f := f.indexesOf)
    (fun key => length_indexesOf f.hash f.hashIterations f.size key) keys
  rw [CountingBloomFilter.removeMulti, if_neg (by simpa using hkeys),
    countingBloomFilterRemoveMultiScript, hfor]
  dsimp only
  rw [removing, ← hgroups, foldl_map, foldl_map]
  simp only [Nat.add_sub_cancel_left]
  rfl

theorem simulated_removing (keys : List Bytes) (hs : ∀ y, 0 ≤ value s.filter y) :
    Simulated (value (readCounters s.filter (f.indexes keys))) f.hashIterations f.size.toNat
      (removing f keys s) := by
  apply Simulated.foldl_removeKey
  · exact ⟨readCounters_nonneg hs _, fun y => (Int.sub_zero _).symm, rfl, nofun⟩
  · intro xs hxs
    obtain ⟨key, -, rfl⟩ := mem_map.mp hxs
    exact ⟨length_indexesOf _ _ _ _, fun x hx => lt_size_of_mem_indexesOf f hx⟩

theorem nonneg_removed (hs : ∀ y, 0 ≤ value s.filter y) (y : Nat) :
    0 ≤ value ((removing f keys s).decreaseIndexes.foldl (hincrby (-1)) s.filter) y := by
  have hsim := simulated_removing (f := f) keys hs
  have htable := hsim.table y
  have hpos := hsim.nonneg y
  rw [value_readCounters] at htable
  rw [value_foldl_hincrby]
  have := hs y
  split at htable <;> omega

theorem decreaseIndexes_removing (hs : ∀ y, 0 ≤ value s.filter y)
    (hle : ∀ y, ((f.indexes keys).count y : Int) ≤ value s.filter y) :
    (removing f keys s).decreaseIndexes = f.indexes keys := by
  rw [removing, foldl_removeKey_of_count_le (readCounters_nonneg hs _), nil_append,
    CountingBloomFilter.indexes, flatMap_def]
  intro y
  rw [← flatMap_def, value_readCounters]
  split
  next => exact hle y
  next hy => exact Int.le_of_eq (congrArg _ (count_eq_zero.mpr hy))

theorem replies_eq {σ : Type} (step : σ → Option Int → σ) (start : σ) (hk : 1 ≤ f.hashIterations)
    (hs : ∀ y, 0 ≤ value s.filter y) (keys : List Bytes) : f.replies step start keys s =
      some (keys.map fun key => ((f.indexesOf key).map s.filter).foldl step start) := by
  by_cases hkeys : keys = []
  · subst hkeys
    rfl
  · have hlen : 0 < keys.length := length_pos_iff.mpr hkeys
    have hne : ((f.indexes keys).map s.filter).length ≠ 0 := by
      rw [length_map, length_indexes]
      exact Nat.ne_of_gt (Nat.mul_pos hlen hk)
    have hall : ((f.indexes keys).map s.filter).all (fun message => decide (0 ≤ message.getD 0)) =
        true := by
      rw [List.all_map, List.all_eq_true]
      intro y _
      exact decide_eq_true (hs y)
    rw [CountingBloomFilter.replies, if_neg (by omega)]
    rw [if_neg hne, if_pos hall, CountingBloomFilter.indexes, map_flatMap,
      Groups.scan_flatMap step start _ hk (fun key => ?_) (Nat.zero_mod _)]
    rw [length_map]
    exact length_indexesOf _ _ _ _

end Calls

/-! ## Whole runs -/

structure CountingInv (f : CountingBloomFilter) (s : CountingRun) : Prop where
  nonneg : ∀ y, 0 ≤ value s.counters.filter y
  bounded : ∀ y, s.counters.filter y ≠ none → y < f.size.toNat
  total : ∑ y ∈ Finset.range f.size.toNat, value s.counters.filter y =
    f.hashIterations * s.counters.counter.getD 0
  weights : s.proper = true → ∀ y, value s.counters.filter y = weight f s.present y

section Runs

variable {f : CountingBloomFilter} {s : CountingRun} {messages : List (Option Int)}

theorem CountingInv.start : CountingInv f {} := by
  refine ⟨fun y => Int.le_refl 0, fun y hy => absurd rfl hy, ?_, fun _ y => rfl⟩
  simp [value]

theorem bounded_foldl_hincrby {n : Int} (hxs : ∀ x ∈ xs, x < f.size.toNat) (h : CountingInv f s)
    (y : Nat) (hy : xs.foldl (hincrby n) s.counters.filter y ≠ none) : y < f.size.toNat := by
  by_cases hmem : y ∈ xs
  · exact hxs y hmem
  · rw [foldl_hincrby_of_notMem n hmem] at hy
    exact h.bounded y hy

theorem CountingInv.add (h : CountingInv f s) (keys : List Bytes) :
    CountingInv f { s with
      counters := f.addMulti keys s.counters
      present := s.present + (keys : Multiset Bytes) } := by
  by_cases hkeys : keys = []
  · subst hkeys
    rw [Multiset.coe_nil, Multiset.add_zero]
    exact h
  · rw [addMulti_eq hkeys]
    constructor
    · intro y
      have := h.nonneg y
      dsimp only [countingBloomFilterAddMultiScript]
      rw [value_foldl_hincrby]
      omega
    · exact bounded_foldl_hincrby (fun x hx => lt_size_of_mem_indexes f hx) h
    · dsimp only [countingBloomFilterAddMultiScript]
      rw [sum_foldl_hincrby 1 (fun x hx => lt_size_of_mem_indexes f hx), h.total, length_indexes,
        getD_some, Int.mul_add]
      push_cast
      rw [Int.one_mul, Int.mul_comm (keys.length : Int)]
    · intro hproper y
      dsimp only [countingBloomFilterAddMultiScript]
      rw [value_foldl_hincrby, h.weights hproper, weight_add, count_indexes]
      omega

variable (hk : 1 ≤ f.hashIterations) (h : CountingInv f s)

include hk h

theorem CountingInv.remove (keys : List Bytes) :
    ∃ counters, f.removeMulti keys s.counters = some counters ∧ CountingInv f
      { counters := counters
        present := s.present - (keys : Multiset Bytes)
        proper := s.proper && decide ((keys : Multiset Bytes) ≤ s.present) } := by
  by_cases hkeys : keys = []
  · subst hkeys
    refine ⟨s.counters, rfl, ?_⟩
    rw [Multiset.coe_nil, Multiset.sub_zero, decide_eq_true (Multiset.zero_le _), Bool.and_true]
    exact h
  · refine ⟨_, removeMulti_eq hk hkeys s.counters, ?_⟩
    have hsim := simulated_removing (f := f) keys h.nonneg
    constructor
    · exact nonneg_removed h.nonneg
    · exact bounded_foldl_hincrby hsim.bounded h
    · rw [sum_foldl_hincrby (-1) hsim.bounded, h.total, hsim.items, getD_some, Int.mul_sub]
      omega
    · intro hproper y
      obtain ⟨hbefore, hle⟩ := Bool.and_eq_true_iff.mp hproper
      -- what is left over, added to the removed keys, is what was there
      obtain ⟨rest, hrest⟩ := Multiset.le_iff_exists_add.mp (of_decide_eq_true hle)
      have hweights : ∀ y, value s.counters.filter y = (f.indexes keys).count y + weight f rest y := by
        intro y
        rw [h.weights hbefore, hrest, weight_add, count_indexes]
        rfl
      have hdec : (removing f keys s.counters).decreaseIndexes = f.indexes keys := by
        apply decreaseIndexes_removing h.nonneg
        intro y
        rw [hweights]
        omega
      dsimp only
      rw [hdec, value_foldl_hincrby, hweights, hrest, add_tsub_cancel_left]
      omega

theorem CountingInv.step (call : CountingCall) :
    ∃ s', f.step s call = some s' ∧ CountingInv f s' := by
  cases call with
  | addMulti keys => exact ⟨_, rfl, h.add keys⟩
  | removeMulti keys =>
    obtain ⟨counters, hremove, hinv⟩ := h.remove hk keys
    exact ⟨_, by rw [CountingBloomFilter.step, hremove]; rfl, hinv⟩

theorem CountingInv.run (calls : List CountingCall) :
    ∃ s', run f.step s calls = some s' ∧ CountingInv f s' := by
  induction calls generalizing s with
  | nil => exact ⟨s, rfl, h⟩
  | cons call calls ih =>
    obtain ⟨s₁, hstep, hinv⟩ := h.step hk call
    obtain ⟨s', hrun, hinv'⟩ := ih hinv
    exact ⟨s', (run_cons_eq_some f.step).mpr ⟨s₁, hstep, hrun⟩, hinv'⟩

theorem CountingInv.counter_nonneg : 0 ≤ s.counters.counter.getD 0 := by
  have hsum : 0 ≤ (f.hashIterations : Int) * s.counters.counter.getD 0 := by
    rw [← h.total]
    exact Finset.sum_nonneg fun y _ => h.nonneg y
  have hpos : 0 < (f.hashIterations : Int) := by omega
  exact Int.nonneg_of_mul_nonneg_right hsum hpos

omit hk

theorem CountingInv.count_le (hproper : s.proper = true) (key : Bytes) (message : Option Int)
    (hmem : message ∈ (f.indexesOf key).map s.counters.filter) :
    (s.present.count key : Int) ≤ message.getD 0 := by
  obtain ⟨y, hy, rfl⟩ := mem_map.mp hmem
  have hweight := count_le_weight f hy s.present
  have hvalue := h.weights hproper y
  change _ ≤ value s.counters.filter y
  omega

omit h

theorem foldl_exists (h : ∀ message ∈ messages, 1 ≤ message.getD 0) :
    messages.foldl
      (fun isExist message =>
        match message with
        | none => false
        | some cnt => if cnt = 0 then false else isExist)
      true = true := by
  induction messages with
  | nil => rfl
  | cons message messages ih =>
    rw [forall_mem_cons] at h
    cases message with
    | none =>
      have : (1 : Int) ≤ 0 := h.1
      omega
    | some cnt =>
      have hcnt : 1 ≤ cnt := h.1
      rw [foldl_cons]
      dsimp only
      rw [if_neg (by omega)]
      exact ih h.2

theorem le_foldl_minCount {n minCount : Int} (hn : n ≤ minCount)
    (h : ∀ message ∈ messages, n ≤ message.getD 0) :
    n ≤ messages.foldl
      (fun minCount message =>
        match message with
        | none => 0
        | some cnt => if cnt < minCount then cnt else minCount)
      minCount := by
  induction messages generalizing minCount with
  | nil => exact hn
  | cons message messages ih =>
    rw [forall_mem_cons] at h
    rw [foldl_cons]
    apply ih _ h.2
    cases message with
    | none => exact h.1
    | some cnt =>
      dsimp only
      split
      · exact h.1
      · exact hn

end Runs

/-- After any calls no counter is below zero, the counters add up to `hashIterations` times the item
counter, and `Count` succeeds; where only present keys were removed, every key that is left is
found, with a count that is at least its multiplicity or the largest number there is. -/
theorem counters_total (f : CountingBloomFilter) (hk : 1 ≤ f.hashIterations)
    (calls : List CountingCall) :
    ∃ s, run f.step {} calls = some s ∧
      (∀ y n, s.counters.filter y = some n → 0 ≤ n ∧ y < f.size.toNat) ∧
      ∑ y ∈ Finset.range f.size.toNat, value s.counters.filter y =
        f.hashIterations * s.counters.counter.getD 0 ∧
      0 ≤ s.counters.counter.getD 0 ∧
      CountingBloomFilter.count s.counters = some (s.counters.counter.getD 0) ∧
      (s.proper = true → ∀ keys,
        (∃ answers, f.existsMulti keys s.counters = some answers ∧
          ∀ (i : Nat) key, keys[i]? = some key → key ∈ s.present → answers[i]? = some true) ∧
        ∃ counts, f.itemMinCountMulti keys s.counters = some counts ∧
          ∀ (i : Nat) key, keys[i]? = some key → key ∈ s.present →
            ∃ n, counts[i]? = some n ∧
              min (s.present.count key : Int) CountingBloomFilter.maxUint64 ≤ n) := by
  obtain ⟨s, hrun, h⟩ := CountingInv.run hk (CountingInv.start (f := f)) calls
  have hitems := h.counter_nonneg hk
  refine ⟨s, hrun, ?_, h.total, hitems, ?_, ?_⟩
  · intro y n hy
    have hpos := h.nonneg y
    rw [value, hy] at hpos
    exact ⟨hpos, h.bounded y (by rw [hy]; exact some_ne_none n)⟩
  · unfold CountingBloomFilter.count
    cases hcounter : s.counters.counter with
    | none => rfl
    | some n =>
      rw [hcounter] at hitems
      exact if_pos hitems
  · intro hproper keys
    refine ⟨⟨_, replies_eq _ _ hk h.nonneg keys, ?_⟩, _, replies_eq _ _ hk h.nonneg keys, ?_⟩
    · intro i key hkey hmem
      rw [getElem?_map, hkey, map_some, foldl_exists]
      intro message hmessage
      have hcount := h.count_le hproper key message hmessage
      have hone := Multiset.one_le_count_iff_mem.mpr hmem
      omega
    · intro i key hkey _
      refine ⟨_, by rw [getElem?_map, hkey, map_some], ?_⟩
      apply le_foldl_minCount (Int.min_le_right _ _)
      intro message hmessage
      exact Int.le_trans (Int.min_le_left _ _) (h.count_le hproper key message hmessage)

def coinciding : CountingBloomFilter :=
  { hash := fun key => (UInt64.ofNat key.length, 0), hashIterations := 2, size := 4,
    size_ne_zero := by decide }

theorem counters_total_coinciding :
    1 ≤ coinciding.hashIterations ∧
      ∃ s, run coinciding.step {}
          [.addMulti [[1], [2], [1, 2]], .removeMulti [[2], [1, 2]]] = some s ∧
        s.proper = true ∧ [1] ∈ s.present ∧ CountingBloomFilter.count s.counters = some 1 ∧
        ∃ answers, coinciding.existsMulti [[1, 2], [1]] s.counters = some answers ∧
          answers[1]? = some true := by
  obtain ⟨s, hrun, -, -, -, hcount, hkeys⟩ := counters_total coinciding (by decide)
    [.addMulti [[1], [2], [1, 2]], .removeMulti [[2], [1, 2]]]
  have hend : (run coinciding.step {}
      [.addMulti [[1], [2], [1, 2]], .removeMulti [[2], [1, 2]]]).any (fun s =>
        decide (s.proper = true ∧ [1] ∈ s.present ∧ s.counters.counter.getD 0 = 1)) = true := by
    decide +kernel
  rw [hrun, any_some, decide_eq_true_iff] at hend
  obtain ⟨hproper, hmem, hone⟩ := hend
  obtain ⟨⟨answers, hanswers, hfound⟩, -⟩ := hkeys hproper [[1, 2], [1]]
  rw [hone] at hcount
  exact ⟨by decide, s, hrun, hproper, hmem, hcount, answers, hanswers, hfound 1 [1] rfl hmem⟩

/-! ## Adding and taking off again -/

/-- A conversion of a number to `uint`; one that is too large is converted to something. -/
structure UintConversion where
  of : Nat → UInt64
  of_lt : ∀ n < 2 ^ 64, (of n).toNat = n

open Classical in
noncomputable def newCountingBloomFilter (uint : UintConversion) (hash : Hash) (name : Bytes)
    (expectedNumberOfItems : Nat) (falsePositiveRate : ℝ) : Except String CountingBloomFilter :=
  if name.length = 0 then .error "name cannot be empty"
  else if falsePositiveRate ≤ 0 then
    .error "false positive rate cannot be less than or equal to zero"
  else if falsePositiveRate ≥ 1 then .error "false positive rate cannot be greater than 1"
  else
    let size := uint.of (numberOfBloomFilterBits expectedNumberOfItems falsePositiveRate)
    if h : size = 0 then .error "bits size cannot be zero"
    else
      .ok { hash := hash
            hashIterations :=
              (uint.of (numberOfBloomFilterHashFunctions size.toNat expectedNumberOfItems)).toNat
            size := size
            size_ne_zero := h }

/-- `AddMulti` and then `RemoveMulti` of the same keys leave every counter as it was, a missing one
and 0 being the same. -/
def CountingBloomFilter.Undoes (f : CountingBloomFilter) (keys : List Bytes) (s : Counters) : Prop :=
  ∃ t, f.removeMulti keys (f.addMulti keys s) = some t ∧
    (∀ y, value t.filter y = value s.filter y) ∧ t.counter.getD 0 = s.counter.getD 0

section Undo

variable {f : CountingBloomFilter}

theorem undoes_of_pos (hk : 1 ≤ f.hashIterations) (hkeys : keys ≠ [])
    (hs : ∀ y, 0 ≤ value s.filter y) : f.Undoes keys s := by
  have hval : ∀ y, value (f.addMulti keys s).filter y =
      value s.filter y + (f.indexes keys).count y := by
    intro y
    rw [addMulti_eq hkeys, countingBloomFilterAddMultiScript, value_foldl_hincrby, Int.one_mul]
  have hnonneg : ∀ y, 0 ≤ value (f.addMulti keys s).filter y := fun y => by
    have := hs y; have := hval y; omega
  -- no counter is short of what the keys take off, so all of them go through
  have hdec : (removing f keys (f.addMulti keys s)).decreaseIndexes = f.indexes keys :=
    decreaseIndexes_removing hnonneg fun y => by have := hs y; have := hval y; omega
  have hitems := (simulated_removing (f := f) keys hnonneg).items
  rw [hdec, length_indexes, Nat.mul_comm] at hitems
  have hall := Nat.eq_of_mul_eq_mul_left hk hitems
  refine ⟨_, removeMulti_eq hk hkeys _, fun y => ?_, ?_⟩
  · rw [hdec, value_foldl_hincrby, hval]
    omega
  · rw [← hall, addMulti_eq hkeys]
    show s.counter.getD 0 + (keys.length : Int) - keys.length = _
    omega

/-- Without a hash function the loop over the keys has the step 0. -/
theorem removeMulti_of_zero (hk : f.hashIterations = 0) (hkeys : keys ≠ []) (s : Counters) :
    f.removeMulti keys s = none := by
  have hlen : (f.indexes keys).length = 0 := by rw [length_indexes, hk, Nat.mul_zero]
  rw [CountingBloomFilter.removeMulti, if_neg (by simpa using hkeys),
    countingBloomFilterRemoveMultiScript, hlen, hk]
  rfl

theorem newCountingBloomFilter_eq_ok {uint : UintConversion} {hash : Hash}
    (hf : newCountingBloomFilter uint hash name n r = .ok f) :
    f.size = uint.of (numberOfBloomFilterBits n r) ∧ 0 < n ∧
      f.hashIterations = numberOfBloomFilterHashFunctions f.size.toNat n := by
  unfold newCountingBloomFilter at hf
  dsimp only at hf
  split_ifs at hf with _ _ _ hsize
  cases hf
  have hn : 0 < n := by
    by_contra hzero
    rw [Nat.eq_zero_of_not_pos hzero, numberOfBloomFilterBits_zero] at hsize
    exact hsize (UInt64.toNat_inj.mp (uint.of_lt 0 (by decide)))
  refine ⟨rfl, hn, uint.of_lt _ ?_⟩
  -- there are no more hash functions than bits, and the number of bits is a `uint`
  exact lt_of_le_of_lt (hashFunctions_le _ hn) (UInt64.toNat_lt _)

end Undo

/-- An accepted filter's remove script ends, and undoes adding the same keys, exactly when its sizes
leave it a hash function. -/
theorem removal_undoes_iff (uint : UintConversion) (hash : Hash) {f : CountingBloomFilter}
    (hf : newCountingBloomFilter uint hash name n r = .ok f) :
    (∀ keys ≠ [], (∀ s, (f.removeMulti keys s).isSome = true) ∧
      ∀ s, (∀ y, 0 ≤ value s.filter y) → f.Undoes keys s) ↔
    (n : ℝ) ≤ 2 * f.size.toNat * Real.log 2 := by
  obtain ⟨-, hn, hiter⟩ := newCountingBloomFilter_eq_ok hf
  rw [← hashFunctions_pos_iff _ hn, ← hiter]
  constructor
  · intro h
    by_contra hzero
    have hends := (h [[]] (by decide)).1 {}
    rw [removeMulti_of_zero (Nat.eq_zero_of_not_pos hzero) (by decide)] at hends
    cases hends
  · intro hk keys hkeys
    exact ⟨fun s => by rw [removeMulti_eq hk hkeys]; rfl, fun s hs => undoes_of_pos hk hkeys hs⟩

def exactUint : UintConversion := ⟨UInt64.ofNat, fun _ hn => UInt64.toNat_ofNat_of_lt' hn⟩

theorem exists_newCountingBloomFilter (hash : Hash) (hpos : 0 < r) (hlt : r < 1)
    (hbits : 0 < numberOfBloomFilterBits n r) (hmax : numberOfBloomFilterBits n r ≤ maxSize) :
    ∃ f, newCountingBloomFilter exactUint hash [1] n r = .ok f ∧
      f.size.toNat = numberOfBloomFilterBits n r := by
  have hsize := exactUint.of_lt _ (lt_of_le_of_lt hmax (by decide))
  have hne : exactUint.of (numberOfBloomFilterBits n r) ≠ 0 := by
    intro h
    rw [h] at hsize
    exact hbits.ne hsize
  unfold newCountingBloomFilter
  rw [if_neg (by decide), if_neg (not_le.mpr hpos), if_neg (not_le.mpr hlt)]
  rw [dif_neg hne]
  exact ⟨_, rfl, hsize⟩

theorem removal_undoes_iff_half :
    ∃ f, newCountingBloomFilter exactUint (fun _ => (0, 0)) [1] 1 (1 / 2) = .ok f ∧
      ∀ keys ≠ [], (∀ s, (f.removeMulti keys s).isSome = true) ∧
        ∀ s, (∀ y, 0 ≤ value s.filter y) → f.Undoes keys s := by
  obtain ⟨f, hf, hsize⟩ := exists_newCountingBloomFilter (fun _ => (0, 0)) (r := 1 / 2)
    (by norm_num) (by norm_num) bits_half.1 bits_half.2
  refine ⟨f, hf, (removal_undoes_iff exactUint _ hf).mpr ?_⟩
  rw [hsize]
  exact one_le_two_mul_log bits_half.1

/-- A hundred items at a rate of 0.99 are accepted without a hash function: `RemoveMulti` of a key
starts a script that does not end. -/
theorem removal_never_ends :
    ∃ f, newCountingBloomFilter exactUint (fun _ => (0, 0)) [1] 100 (99 / 100) = .ok f ∧
      ∀ s, f.removeMulti [[]] s = none := by
  obtain ⟨f, hf, hsize⟩ := exists_newCountingBloomFilter (fun _ => (0, 0)) (r := 99 / 100)
    (by norm_num) (by norm_num) bits_hundred.1 (le_trans bits_hundred.2 (by decide))
  refine ⟨f, hf, removeMulti_of_zero ?_ (by decide)⟩
  rw [(newCountingBloomFilter_eq_ok hf).2.2, hsize, hashFunctions_hundred bits_hundred.2]

end Rueidis.Prob
