import Rueidis.Cmds.KeySlots
import Rueidis.Library.Groups
import Rueidis.Library.Machine
import Mathlib.Analysis.Complex.ExponentialBounds

/-!
# The Bloom filter

`bloomfilter.go`: the sizing formulas with the exact real functions, the constructor, and the two
batch scripts, which get the indexes of all keys in one list and regroup them by the number of hash
functions.
-/

namespace Rueidis.Prob

open List Machine

/-! ## Indexes -/

variable {name : Bytes} {bits : Nat}

abbrev Hash := Bytes → UInt64 × UInt64

variable {hash : Hash}

def index (h1 h2 : UInt64) (i : Nat) (maxSize : UInt64) : UInt64 :=
  (h1 + UInt64.ofNat i * h2) % maxSize

def indexesOf (hash : Hash) (hashIterations : Nat) (size : UInt64) (key : Bytes) : List Nat :=
  (List.range hashIterations).map fun i => (index (hash key).1 (hash key).2 i size).toNat

def indexes (hash : Hash) (hashIterations : Nat) (size : UInt64) (keys : List Bytes) : List Nat :=
  keys.flatMap (indexesOf hash hashIterations size)

@[simp] theorem length_indexesOf (hash : Hash) (k : Nat) (size : UInt64) (key : Bytes) :
    (indexesOf hash k size key).length = k := by
  rw [indexesOf, length_map, length_range]

/-! ## Sizes -/

noncomputable def numberOfBloomFilterBits (n : Nat) (r : ℝ) : Nat :=
  ⌈-(n : ℝ) * Real.log r / Real.log 2 ^ 2⌉₊

noncomputable def numberOfBloomFilterHashFunctions (s n : Nat) : Nat :=
  ⌊(s : ℝ) / n * Real.log 2 + 1 / 2⌋₊

def maxSize : Nat := 4294967296

structure BloomFilter where
  name : Bytes
  addMultiKeys : List Bytes
  existsMultiKeys : List Bytes
  hashIterations : Nat
  size : UInt64
deriving DecidableEq, Repr

open Classical in
noncomputable def newBloomFilter (name : Bytes) (expectedNumberOfItems : Nat)
    (falsePositiveRate : ℝ) : Except String BloomFilter :=
  if name.length = 0 then .error "name cannot be empty"
  else if falsePositiveRate ≤ 0 then
    .error "false positive rate cannot be less than or equal to zero"
  else if falsePositiveRate > 1 then .error "false positive rate cannot be greater than 1"
  else
    let size := numberOfBloomFilterBits expectedNumberOfItems falsePositiveRate
    if size = 0 then .error "bits size cannot be zero"
    else if size > maxSize then .error "bits size is too large"
    else
      .ok { name := bfName name
            addMultiKeys := bloomFilterKeys name
            existsMultiKeys := [bfName name]
            hashIterations := numberOfBloomFilterHashFunctions size expectedNumberOfItems
            size := UInt64.ofNat size }

/-! ## The scripts -/

structure Bits where
  bit : Nat → Bool := fun _ => false
  counter : Nat := 0

/-- `BITFIELD SET u1 x 1` in the loop of the add script: the bit that was there is counted. -/
structure AddLoop where
  bit : Nat → Bool
  counter : Nat := 0
  oneBits : Nat := 0
  i : Nat := 0

def AddLoop.next (hashIterations : Nat) (l : AddLoop) (x : Nat) : AddLoop :=
  let oneBits := l.oneBits + (l.bit x).toNat
  let bit := Function.update l.bit x true
  if (l.i + 1) % hashIterations = 0 then
    { bit := bit
      counter := if oneBits ≠ hashIterations then l.counter + 1 else l.counter
      oneBits := 0
      i := l.i + 1 }
  else { bit := bit, counter := l.counter, oneBits := oneBits, i := l.i + 1 }

def bloomFilterAddMultiScript (hashIterations : Nat) (xs : List Nat) (s : Bits) : Bits :=
  let l := xs.foldl (AddLoop.next hashIterations) { bit := s.bit }
  { bit := l.bit, counter := s.counter + l.counter }

def bloomFilterExistsMultiScript (hashIterations : Nat) (xs : List Nat) (s : Bits) : List Bool :=
  Groups.scan hashIterations (fun oneBits x => oneBits + (s.bit x).toNat) 0
    (fun oneBits => oneBits == hashIterations) 0 0 xs

/-! ## The calls -/

namespace BloomFilter

def addMulti (c : BloomFilter) (hash : Hash) (keys : List Bytes) (s : Bits) : Bits :=
  if keys.length = 0 then s
  else bloomFilterAddMultiScript c.hashIterations (indexes hash c.hashIterations c.size keys) s

/-- A result that the reply does not reach is left at false. -/
def existsMulti (c : BloomFilter) (hash : Hash) (keys : List Bytes) (s : Bits) : List Bool :=
  if keys.length = 0 then []
  else
    let arr := bloomFilterExistsMultiScript c.hashIterations
      (indexes hash c.hashIterations c.size keys) s
    (List.range keys.length).map fun i => arr.getD i false

end BloomFilter

structure BloomRun where
  bits : Bits := {}
  added : List Bytes := []

variable {s : BloomRun}

inductive BloomCall where
  | addMulti (keys : List Bytes)
  | existsMulti (keys : List Bytes)
deriving DecidableEq, Repr

def BloomFilter.step (c : BloomFilter) (hash : Hash) (s : BloomRun) : BloomCall → Option BloomRun
  | .addMulti keys => some { bits := c.addMulti hash keys s.bits, added := s.added ++ keys }
  | .existsMulti _ => some s

/-- `ExistsMulti` reports true for every key that was added before. -/
def BloomFilter.FindsAdded (c : BloomFilter) (hash : Hash) (s : BloomRun) : Prop :=
  ∀ keys (i : Nat) key, keys[i]? = some key → key ∈ s.added →
    (c.existsMulti hash keys s.bits)[i]? = some true

/-! ## Lookups -/

theorem bit_next (k : Nat) (l : AddLoop) (x : Nat) :
    (l.next k x).bit = Function.update l.bit x true := by
  unfold AddLoop.next
  split <;> rfl

theorem bit_foldl_next (k : Nat) (xs : List Nat) (l : AddLoop) (y : Nat) :
    (xs.foldl (AddLoop.next k) l).bit y = (l.bit y || decide (y ∈ xs)) := by
  induction xs generalizing l with
  | nil => simp
  | cons x xs ih =>
    rw [foldl_cons, ih, bit_next, Function.update_apply]
    by_cases hy : y = x <;> simp [hy]

theorem bit_addMulti (c : BloomFilter) (hash : Hash) (keys : List Bytes) (s : Bits) (y : Nat) :
    (c.addMulti hash keys s).bit y =
      (s.bit y || decide (y ∈ indexes hash c.hashIterations c.size keys)) := by
  unfold BloomFilter.addMulti
  split
  · rename_i hnil
    rw [length_eq_zero_iff.mp hnil]
    simp [indexes]
  · exact bit_foldl_next _ _ _ y

theorem foldl_ones (bit : Nat → Bool) (xs : List Nat) (n : Nat) :
    xs.foldl (fun oneBits x => oneBits + (bit x).toNat) n = n + xs.countP bit := by
  induction xs generalizing n with
  | nil => rfl
  | cons x xs ih =>
    rw [foldl_cons, ih, countP_cons]
    cases bit x <;> simp; omega

theorem ones_beq_length (bit : Nat → Bool) (hash : Hash) (k : Nat) (size : UInt64) (key : Bytes) :
    ((indexesOf hash k size key).foldl (fun oneBits x => oneBits + (bit x).toNat) 0 == k) =
      (indexesOf hash k size key).all bit := by
  rw [foldl_ones, Nat.zero_add, Bool.eq_iff_iff, beq_iff_eq, all_eq_true,
    ← countP_eq_length, length_indexesOf]

variable {c : BloomFilter} {n : Nat} {r : ℝ}

theorem existsMulti_eq (hk : 0 < c.hashIterations) (hash : Hash) (keys : List Bytes) (s : Bits) :
    c.existsMulti hash keys s =
      keys.map fun key => (indexesOf hash c.hashIterations c.size key).all s.bit := by
  unfold BloomFilter.existsMulti bloomFilterExistsMultiScript indexes
  split
  · rename_i hnil
    rw [length_eq_zero_iff.mp hnil]
    rfl
  · rw [Groups.scan_flatMap _ _ _ hk (fun key => length_indexesOf hash _ _ key) (Nat.zero_mod _)]
    simp only [ones_beq_length]
    apply ext_getElem
    · rw [length_map, length_range, length_map]
    · intro i hi hi'
      rw [getElem_map, getElem_range, getD_eq_getElem?_getD,
        getElem?_eq_getElem hi', Option.getD_some]

theorem existsMulti_eq_false (hk : c.hashIterations = 0) (hash : Hash) (keys : List Bytes)
    (s : Bits) : c.existsMulti hash keys s = keys.map fun _ => false := by
  have hnone : indexes hash c.hashIterations c.size keys = [] := by
    rw [indexes, flatMap_eq_nil_iff]
    intro key _
    rw [hk]
    rfl
  unfold BloomFilter.existsMulti bloomFilterExistsMultiScript
  rw [hnone]
  split
  · rename_i hnil
    rw [length_eq_zero_iff.mp hnil]
    rfl
  · apply ext_getElem
    · simp
    · intro i _ _
      simp [Groups.scan]

def AllSet (c : BloomFilter) (hash : Hash) (s : BloomRun) : Prop :=
  ∀ key ∈ s.added, ∀ x ∈ indexesOf hash c.hashIterations c.size key, s.bits.bit x = true

theorem allSet_step (c : BloomFilter) (hash : Hash) (s : BloomRun) (a : BloomCall) (t : BloomRun)
    (h : AllSet c hash s) (hstep : c.step hash s a = some t) : AllSet c hash t := by
  cases a with
  | existsMulti keys =>
    rw [← Option.some.inj hstep]
    exact h
  | addMulti keys =>
    rw [← Option.some.inj hstep]
    intro key hkey x hx
    rw [bit_addMulti, Bool.or_eq_true]
    rcases mem_append.mp hkey with hkey | hkey
    · exact Or.inl (h key hkey x hx)
    · exact Or.inr (decide_eq_true (mem_flatMap.mpr ⟨key, hkey, hx⟩))

theorem findsAdded_of_allSet (hk : 0 < c.hashIterations) (h : AllSet c hash s) :
    c.FindsAdded hash s := by
  intro keys i key hi hkey
  rw [existsMulti_eq hk, getElem?_map, hi, Option.map_some, all_eq_true.mpr (h key hkey)]

/-! ## Batches and single adds -/

def BloomFilter.add (c : BloomFilter) (hash : Hash) (key : Bytes) (s : Bits) : Bits :=
  c.addMulti hash [key] s

section Batch

variable {k : Nat} {xs : List Nat}

/-- The same loop, begun after `n` items were counted and `i` indexes gone through. -/
def AddLoop.after (n i : Nat) (l : AddLoop) : AddLoop :=
  { l with counter := n + l.counter, i := i + l.i }

theorem next_after {i : Nat} (hi : i % k = 0) (n : Nat) (l : AddLoop) (x : Nat) :
    (l.after n i).next k x = (l.next k x).after n i := by
  have hmod : (i + (l.i + 1)) % k = (l.i + 1) % k := by
    rw [Nat.add_mod, hi, Nat.zero_add, Nat.mod_mod]
  by_cases hlast : (l.i + 1) % k = 0 <;> by_cases hones : l.oneBits + (l.bit x).toNat = k <;>
    simp [AddLoop.next, AddLoop.after, hmod, hlast, hones, Nat.add_assoc]

theorem foldl_next_after {i : Nat} (hi : i % k = 0) (n : Nat) (l : AddLoop) (xs : List Nat) :
    xs.foldl (AddLoop.next k) (l.after n i) = (xs.foldl (AddLoop.next k) l).after n i := by
  induction xs generalizing l with
  | nil => rfl
  | cons x xs ih => rw [foldl_cons, next_after hi, ih, foldl_cons]

theorem i_foldl_next (l : AddLoop) (xs : List Nat) :
    (xs.foldl (AddLoop.next k) l).i = l.i + xs.length := by
  induction xs generalizing l with
  | nil => rfl
  | cons x xs ih =>
    have hnext : (l.next k x).i = l.i + 1 := by
      unfold AddLoop.next
      dsimp only
      split <;> rfl
    rw [foldl_cons, ih, hnext, length_cons]
    omega

theorem foldl_next_of_lt (l : AddLoop) (hlt : l.i + xs.length < k) :
    (xs.foldl (AddLoop.next k) l).counter = l.counter ∧
      ((∀ x ∈ xs, l.bit x = true) →
        (xs.foldl (AddLoop.next k) l).oneBits = l.oneBits + xs.length) := by
  induction xs generalizing l with
  | nil => exact ⟨rfl, fun _ => rfl⟩
  | cons x xs ih =>
    rw [length_cons] at hlt
    have hmod : ¬ (l.i + 1) % k = 0 := by
      rw [Nat.mod_eq_of_lt (by omega)]
      omega
    have hnext : l.next k x =
        { bit := Function.update l.bit x true, counter := l.counter,
          oneBits := l.oneBits + (l.bit x).toNat, i := l.i + 1 } := if_neg hmod
    obtain ⟨hcounter, hones⟩ := ih (l.next k x) (by rw [hnext]; dsimp only; omega)
    rw [hnext] at hcounter hones
    rw [foldl_cons, hnext]
    refine ⟨hcounter, fun hset => ?_⟩
    rw [forall_mem_cons] at hset
    rw [hones fun y hy => by simp [Function.update_apply, hset.2 y hy], hset.1, length_cons]
    show l.oneBits + 1 + xs.length = _
    omega

/-- The indexes of one key: the loop is back at its start, and has counted the key unless all its
bits were set. -/
theorem foldl_next_key (hk : 0 < k) (hlen : xs.length = k) (bit : Nat → Bool) :
    ∃ n bit', xs.foldl (AddLoop.next k) { bit := bit } = ({ bit := bit' } : AddLoop).after n k ∧
      n ≤ 1 ∧ ((∀ x ∈ xs, bit x = true) → n = 0) := by
  obtain ⟨ys, x, rfl⟩ := (eq_nil_or_concat xs).resolve_left (by rintro rfl; exact hk.ne hlen)
  rw [concat_eq_append] at *
  rw [length_append, length_singleton] at hlen
  have hlt : 0 + ys.length < k := by omega
  obtain ⟨hcounter, hones⟩ := foldl_next_of_lt { bit := bit } hlt
  have hi := i_foldl_next (k := k) { bit := bit } ys
  have hbit := bit_foldl_next k ys { bit := bit } x
  rw [foldl_append, foldl_cons, foldl_nil]
  generalize ys.foldl (AddLoop.next k) { bit := bit } = l at hcounter hones hi hbit
  have hlast : (l.i + 1) % k = 0 := by
    rw [hi, show (0 + ys.length + 1) = k by omega, Nat.mod_self]
  refine ⟨if l.oneBits + (l.bit x).toNat ≠ k then 1 else 0, Function.update l.bit x true, ?_, ?_, ?_⟩
  · unfold AddLoop.next AddLoop.after
    dsimp only
    rw [if_pos hlast, hcounter, hi]
    simp [hlen]
  · split <;> omega
  · intro hset
    rw [forall_mem_append] at hset
    have hx : bit x = true := hset.2 x (by simp)
    rw [hones hset.1, hbit]
    simp [hx, hlen]

theorem addMultiScript_append (hk : 0 < k) (hlen : xs.length = k) (ys : List Nat) (s : Bits) :
    bloomFilterAddMultiScript k (xs ++ ys) s =
      bloomFilterAddMultiScript k ys (bloomFilterAddMultiScript k xs s) := by
  obtain ⟨n, bit, hkey, -⟩ := foldl_next_key hk hlen s.bit
  simp only [bloomFilterAddMultiScript, foldl_append, hkey,
    foldl_next_after (Nat.mod_self k)]
  simp [AddLoop.after, Nat.add_assoc]

theorem addMulti_cons (hk : 0 < c.hashIterations) (hash : Hash) (key : Bytes) (keys : List Bytes)
    (s : Bits) : c.addMulti hash (key :: keys) s = c.addMulti hash keys (c.add hash key s) := by
  have hsplit : indexes hash c.hashIterations c.size (key :: keys) =
      indexesOf hash c.hashIterations c.size key ++ indexes hash c.hashIterations c.size keys := rfl
  have hadd : c.add hash key s = bloomFilterAddMultiScript c.hashIterations
      (indexesOf hash c.hashIterations c.size key) s := by
    simp [BloomFilter.add, BloomFilter.addMulti, indexes]
  unfold BloomFilter.addMulti
  rw [if_neg (by simp), hsplit, addMultiScript_append hk (length_indexesOf ..), hadd]
  cases keys with
  | nil => rfl
  | cons key' keys => rfl

theorem counter_add (hk : 0 < c.hashIterations) (hash : Hash) (key : Bytes) (s : Bits) :
    (c.add hash key s).counter ≤ s.counter + 1 ∧
      ((∀ x ∈ indexesOf hash c.hashIterations c.size key, s.bit x = true) →
        (c.add hash key s).counter = s.counter) := by
  obtain ⟨n, bit, hkey, hn, hset⟩ := foldl_next_key hk (length_indexesOf hash _ c.size key) s.bit
  have hcount : (c.add hash key s).counter = s.counter + n := by
    simp [BloomFilter.add, BloomFilter.addMulti, bloomFilterAddMultiScript, indexes, hkey,
      AddLoop.after]
  rw [hcount]
  exact ⟨by omega, fun h => by rw [hset h, Nat.add_zero]⟩

def Counted (c : BloomFilter) (hash : Hash) (s : BloomRun) : Prop :=
  AllSet c hash s ∧ s.bits.counter ≤ s.added.toFinset.card

theorem Counted.addMulti (hk : 0 < c.hashIterations) (keys : List Bytes) (h : Counted c hash s) :
    Counted c hash { bits := c.addMulti hash keys s.bits, added := s.added ++ keys } := by
  induction keys generalizing s with
  | nil => simpa [BloomFilter.addMulti] using h
  | cons key keys ih =>
    have hone : Counted c hash { bits := c.add hash key s.bits, added := s.added ++ [key] } := by
      obtain ⟨hle, hsame⟩ := counter_add hk hash key s.bits
      refine ⟨allSet_step c hash s (.addMulti [key]) _ h.1 rfl, ?_⟩
      show (c.add hash key s.bits).counter ≤ (s.added ++ [key]).toFinset.card
      have hcard : (s.added ++ [key]).toFinset = insert key s.added.toFinset := by
        ext; simp
      rw [hcard]
      by_cases hmem : key ∈ s.added
      · -- all bits of the key are set already
        rw [hsame (h.1 key hmem), Finset.insert_eq_of_mem (by simpa using hmem)]
        exact h.2
      · rw [Finset.card_insert_of_notMem (by simpa using hmem)]
        have := h.2
        omega
    have := ih hone
    rwa [append_assoc, singleton_append, ← addMulti_cons hk] at this

end Batch

/-- `AddMulti` is `Add` for one key after the other, in every state; and in every run from an empty
filter the counter is at most the number of distinct keys that were added. -/
theorem addMulti_eq_adds (c : BloomFilter) (hk : 0 < c.hashIterations) (hash : Hash) :
    (∀ (keys : List Bytes) (s : Bits),
      c.addMulti hash keys s = keys.foldl (fun s key => c.add hash key s) s) ∧
    ∀ (calls : List BloomCall) (s : BloomRun), run (c.step hash) {} calls = some s →
      s.bits.counter ≤ s.added.toFinset.card := by
  constructor
  · intro keys s
    induction keys generalizing s with
    | nil => rfl
    | cons key keys ih => rw [addMulti_cons hk, ih, foldl_cons]
  · intro calls s hrun
    have hstart : Counted c hash {} := ⟨fun key hkey => absurd hkey not_mem_nil, Nat.le_refl _⟩
    refine (run_invariant (c.step hash) (fun s a t hs hstep => ?_) hstart hrun).2
    cases a with
    | existsMulti keys => exact Option.some.inj hstep ▸ hs
    | addMulti keys => exact Option.some.inj hstep ▸ hs.addMulti hk keys

theorem addMulti_eq_adds_coinciding :
    let c : BloomFilter := ⟨[1], [], [], 2, 8⟩
    let hash : Hash := fun key => (UInt64.ofNat key.length, 0)
    c.addMulti hash [[1], [2, 2], [1]] {} =
      c.add hash [1] (c.add hash [2, 2] (c.add hash [1] {})) ∧
    (c.addMulti hash [[1], [2, 2], [1]] {}).counter = 2 :=
  ⟨(addMulti_eq_adds ⟨[1], [], [], 2, 8⟩ (by decide) fun key => (UInt64.ofNat key.length, 0)).1 _ _,
    by decide⟩

/-! ## Accepted configurations -/

theorem newBloomFilter_eq_ok (h : newBloomFilter name n r = .ok c) :
    numberOfBloomFilterBits n r ≠ 0 ∧
      c.hashIterations = numberOfBloomFilterHashFunctions (numberOfBloomFilterBits n r) n := by
  unfold newBloomFilter at h
  dsimp only at h
  split_ifs at h
  rename_i hsize _
  cases h
  exact ⟨hsize, rfl⟩

theorem numberOfBloomFilterBits_zero (r : ℝ) : numberOfBloomFilterBits 0 r = 0 := by
  unfold numberOfBloomFilterBits
  simp

theorem hashFunctions_pos_iff (s : Nat) (hn : 0 < n) :
    0 < numberOfBloomFilterHashFunctions s n ↔ (n : ℝ) ≤ 2 * s * Real.log 2 := by
  have hpos : (0 : ℝ) < n := by exact_mod_cast hn
  unfold numberOfBloomFilterHashFunctions
  rw [Nat.floor_pos]
  constructor
  · intro h
    have hhalf : 1 / 2 ≤ (s : ℝ) / n * Real.log 2 := by linarith
    have hmul := mul_le_mul_of_nonneg_left hhalf hpos.le
    have hcancel : (n : ℝ) * ((s : ℝ) / n * Real.log 2) = s * Real.log 2 := by
      field_simp
    rw [hcancel] at hmul
    linarith
  · intro h
    have hhalf : 1 / 2 ≤ (s : ℝ) / n * Real.log 2 := by
      rw [div_mul_eq_mul_div, le_div_iff₀ hpos]
      linarith
    linarith

theorem hashFunctions_le (s : Nat) (hn : 0 < n) : numberOfBloomFilterHashFunctions s n ≤ s := by
  have hlog := Real.log_two_lt_d9
  have hpos := Real.log_two_gt_d9
  have hs : (0 : ℝ) ≤ s := Nat.cast_nonneg s
  have hdiv : (s : ℝ) / n ≤ s := div_le_self hs (by exact_mod_cast hn)
  unfold numberOfBloomFilterHashFunctions
  rw [← Nat.lt_succ_iff, Nat.floor_lt (by positivity)]
  push_cast
  nlinarith

/-- An accepted filter finds every key that was added, in every run and with every hash function,
exactly when its sizes leave it a hash function. -/
theorem findsAdded_iff {n : Nat} {r : ℝ} {c : BloomFilter} (hc : newBloomFilter name n r = .ok c) :
    (∀ (hash : Hash) (calls : List BloomCall) (s : BloomRun),
      run (c.step hash) {} calls = some s → c.FindsAdded hash s) ↔
    (n : ℝ) ≤ 2 * numberOfBloomFilterBits n r * Real.log 2 := by
  obtain ⟨hsize, hiter⟩ := newBloomFilter_eq_ok hc
  have hn : 0 < n := by
    rcases Nat.eq_zero_or_pos n with rfl | hn
    · exact absurd (numberOfBloomFilterBits_zero r) hsize
    · exact hn
  rw [← hashFunctions_pos_iff _ hn, ← hiter]
  constructor
  · intro h
    by_contra hzero
    have hk : c.hashIterations = 0 := Nat.eq_zero_of_not_pos hzero
    -- one key is added and looked up
    have hfound := h (fun _ => (0, 0)) [.addMulti [[]]] _ rfl [[]] 0 [] rfl
      (mem_append_right _ mem_cons_self)
    rw [existsMulti_eq_false hk] at hfound
    cases hfound
  · intro hk hash calls s hrun
    apply findsAdded_of_allSet hk
    have hstart : AllSet c hash {} := fun key hkey => absurd hkey not_mem_nil
    exact run_invariant (c.step hash) (allSet_step c hash) hstart hrun

theorem exists_newBloomFilter (name : Bytes) (hname : name ≠ []) (hpos : 0 < r) (hle : r ≤ 1)
    (hzero : numberOfBloomFilterBits n r ≠ 0) (hmax : numberOfBloomFilterBits n r ≤ maxSize) :
    ∃ c, newBloomFilter name n r = .ok c := by
  have hlen : name.length ≠ 0 := fun h => hname (length_eq_zero_iff.mp h)
  unfold newBloomFilter
  rw [if_neg hlen, if_neg (not_le.mpr hpos), if_neg (not_lt.mpr hle)]
  rw [if_neg hzero, if_neg (not_lt.mpr hmax)]
  exact ⟨_, rfl⟩

theorem bits_pos (hn : 0 < n) (hpos : 0 < r) (hlt : r < 1) : 0 < numberOfBloomFilterBits n r := by
  have hlog : Real.log r < 0 := Real.log_neg hpos hlt
  have hn' : (0 : ℝ) < n := by exact_mod_cast hn
  have htwo : 0 < Real.log 2 ^ 2 := pow_pos (Real.log_pos (by norm_num)) 2
  unfold numberOfBloomFilterBits
  rw [Nat.ceil_pos]
  apply div_pos _ htwo
  nlinarith

theorem bits_half : 0 < numberOfBloomFilterBits 1 (1 / 2) ∧
    numberOfBloomFilterBits 1 (1 / 2) ≤ maxSize := by
  have hlog := Real.log_two_gt_d9
  refine ⟨bits_pos (by norm_num) (by norm_num) (by norm_num), ?_⟩
  unfold numberOfBloomFilterBits maxSize
  rw [Nat.ceil_le, one_div, Real.log_inv, div_le_iff₀ (by positivity)]
  push_cast
  nlinarith

theorem one_le_two_mul_log (h : 0 < bits) : ((1 : Nat) : ℝ) ≤ 2 * bits * Real.log 2 := by
  have hlog := Real.log_two_gt_d9
  have hone : (1 : ℝ) ≤ bits := by exact_mod_cast h
  push_cast
  nlinarith

theorem findsAdded_iff_half : ∃ c, newBloomFilter [1] 1 (1 / 2) = .ok c ∧
    ∀ (hash : Hash) (calls : List BloomCall) (s : BloomRun),
      run (c.step hash) {} calls = some s → c.FindsAdded hash s := by
  obtain ⟨c, hc⟩ := exists_newBloomFilter [1] (by decide) (by norm_num : (0 : ℝ) < 1 / 2)
    (by norm_num) bits_half.1.ne' bits_half.2
  exact ⟨c, hc, (findsAdded_iff hc).mpr (one_le_two_mul_log bits_half.1)⟩

theorem bits_hundred : 0 < numberOfBloomFilterBits 100 (99 / 100) ∧
    numberOfBloomFilterBits 100 (99 / 100) ≤ 3 := by
  have hlog := Real.log_two_gt_d9
  refine ⟨bits_pos (by norm_num) (by norm_num) (by norm_num), ?_⟩
  have hrate : 1 - (99 / 100 : ℝ)⁻¹ ≤ Real.log (99 / 100) :=
    Real.one_sub_inv_le_log_of_pos (by norm_num)
  norm_num at hrate
  unfold numberOfBloomFilterBits
  rw [Nat.ceil_le, div_le_iff₀ (by positivity)]
  nlinarith

theorem hashFunctions_hundred (h : bits ≤ 3) : numberOfBloomFilterHashFunctions bits 100 = 0 := by
  have hlog := Real.log_two_lt_d9
  apply Nat.eq_zero_of_not_pos
  rw [hashFunctions_pos_iff _ (by norm_num)]
  have hthree : (bits : ℝ) ≤ 3 := by exact_mod_cast h
  push_cast
  nlinarith

/-- A hundred items at a rate of 0.99 are accepted with at most three bits and no hash function: a
key that was added is reported missing. -/
theorem added_key_missing : ∃ c, newBloomFilter [1] 100 (99 / 100) = .ok c ∧
    ∀ hash : Hash, c.existsMulti hash [[]] (c.addMulti hash [[]] {}) = [false] := by
  obtain ⟨c, hc⟩ := exists_newBloomFilter [1] (by decide) (by norm_num : (0 : ℝ) < 99 / 100)
    (by norm_num) bits_hundred.1.ne' (le_trans bits_hundred.2 (by decide))
  refine ⟨c, hc, fun hash => existsMulti_eq_false ?_ hash [[]] _⟩
  rw [(newBloomFilter_eq_ok hc).2, hashFunctions_hundred bits_hundred.2]

end Rueidis.Prob
