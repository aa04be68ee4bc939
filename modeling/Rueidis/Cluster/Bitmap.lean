import Rueidis.Cluster.PickMulti

/-!
# The bitmap of a batch

`bitmap.go`: the first 192 indexes are in a fixed array, the others in a slice behind it.  Seen as one row
of words the two are a set of indexes, which `_pickMulti` fills in its first pass and asks in its second.
-/

namespace Rueidis

structure Bitmap where
  exts : List UInt64 := []
  bits : Vector UInt64 3 := .replicate 3 0

open List

namespace Bitmap

def mask (i : Nat) : UInt64 := 1 <<< UInt64.ofNat (i % 64)

def init (n : Nat) : Bitmap :=
  if 192 < n then { exts := .replicate ((n - 192 + 63) / 64) 0 } else {}

def set (b : Bitmap) (i : Nat) : Except Panic Bitmap :=
  if h : i < 192 then
    have hk : i / 64 < 3 := by omega
    .ok { b with bits := b.bits.set (i / 64) (b.bits.get ⟨i / 64, hk⟩ ||| mask i) hk }
  else
    match b.exts[(i - 192) / 64]? with
    | none => .error indexOutOfRange
    | some w => .ok { b with exts := b.exts.set ((i - 192) / 64) (w ||| mask i) }

def get (b : Bitmap) (i : Nat) : Except Panic Bool :=
  if h : i < 192 then
    have hk : i / 64 < 3 := by omega
    .ok (b.bits.get ⟨i / 64, hk⟩ &&& mask i != 0)
  else
    match b.exts[(i - 192) / 64]? with
    | none => .error indexOutOfRange
    | some w => .ok (w &&& mask i != 0)

/-! ## One row of words -/

def words (b : Bitmap) : List UInt64 := b.bits.toList ++ b.exts

def contains (b : Bitmap) (i : Nat) : Bool := ((b.words[i / 64]?).getD 0).toBitVec.getLsbD (i % 64)

variable {b : Bitmap} {i : Nat}

theorem toBitVec_mask (i : Nat) : (mask i).toBitVec = BitVec.twoPow 64 (i % 64) := by
  have hall : ∀ k < 64, ((1 : UInt64) <<< UInt64.ofNat k).toBitVec = BitVec.twoPow 64 k := by decide
  exact hall (i % 64) (Nat.mod_lt _ (by decide))

theorem and_mask (w : UInt64) (i : Nat) : (w &&& mask i != 0) = w.toBitVec.getLsbD (i % 64) := by
  have hpos : BitVec.twoPow 64 (i % 64) ≠ 0#64 := by
    intro h
    have hbit := congrArg (BitVec.getLsbD · (i % 64)) h
    simp [Nat.mod_lt] at hbit
  rw [Bool.eq_iff_iff, bne_iff_ne, Ne, ← UInt64.toBitVec_inj, UInt64.toBitVec_and, toBitVec_mask,
    BitVec.and_twoPow]
  cases w.toBitVec.getLsbD (i % 64) with
  | true => simpa using hpos
  | false => simp

theorem getLsbD_or_mask (w : UInt64) (i k : Nat) :
    (w ||| mask i).toBitVec.getLsbD k = (w.toBitVec.getLsbD k || decide (i % 64 = k)) := by
  have hlt : i % 64 < 64 := Nat.mod_lt _ (by decide)
  rw [UInt64.toBitVec_or, BitVec.getLsbD_or, toBitVec_mask, BitVec.getLsbD_twoPow,
    decide_eq_true hlt, Bool.true_and]

-- the slice goes on where the array ends
theorem words_of_le (h : ¬ i < 192) : b.words[i / 64]? = b.exts[(i - 192) / 64]? := by
  rw [words, getElem?_append_right (by simp; omega)]
  congr 1
  simp
  omega

theorem words_of_lt (h : i / 64 < 3) : b.words[i / 64]? = some (b.bits.get ⟨i / 64, h⟩) := by
  rw [words, getElem?_append_left (by simpa using h)]
  simp [Vector.get, h]

theorem get_eq (h : i / 64 < b.words.length) : b.get i = .ok (b.contains i) := by
  unfold get contains
  by_cases hlow : i < 192
  · rw [dif_pos hlow, words_of_lt (by omega)]
    exact congrArg Except.ok (and_mask _ i)
  · rw [dif_neg hlow, ← words_of_le hlow, getElem?_eq_getElem h]
    exact congrArg Except.ok (and_mask _ i)

theorem set_eq (h : i / 64 < b.words.length) : ∃ b' w, b.set i = .ok b' ∧
    b.words[i / 64]? = some w ∧ b'.words = b.words.set (i / 64) (w ||| mask i) := by
  unfold set
  by_cases hlow : i < 192
  · have hk : i / 64 < 3 := by omega
    rw [dif_pos hlow]
    refine ⟨_, _, rfl, words_of_lt hk, ?_⟩
    simp [words, hk, Vector.toList_set]
  · rw [dif_neg hlow, ← words_of_le hlow, getElem?_eq_getElem h]
    refine ⟨_, _, rfl, rfl, ?_⟩
    have hk : ¬ i / 64 < 3 := by omega
    have hshift : (i - 192) / 64 = i / 64 - 3 := by omega
    simp [words, set_append, hk, hshift]

theorem contains_set {b' : Bitmap} {w : UInt64} (hw : b.words[i / 64]? = some w)
    (hset : b'.words = b.words.set (i / 64) (w ||| mask i)) (j : Nat) :
    b'.contains j = (b.contains j || decide (j = i)) := by
  have hlt := (List.getElem?_eq_some_iff.mp hw).1
  unfold contains
  rw [hset]
  by_cases hword : i / 64 = j / 64
  · -- the same word: another index has another bit there
    have hbit : i % 64 = j % 64 ↔ j = i := by omega
    rw [← hword, List.getElem?_set_self hlt, hw, Option.getD_some, Option.getD_some, getLsbD_or_mask]
    simp only [hbit]
  · have hne : j ≠ i := by
      rintro rfl
      exact hword rfl
    rw [List.getElem?_set_ne hword, decide_eq_false hne, Bool.or_false]

theorem foldlM_set (is : List Nat) (h : ∀ i ∈ is, i / 64 < b.words.length) :
    ∃ b', is.foldlM set b = .ok b' ∧ b'.words.length = b.words.length ∧
      ∀ j, b'.contains j = (b.contains j || decide (j ∈ is)) := by
  induction is generalizing b with
  | nil => exact ⟨b, rfl, rfl, fun j => by simp⟩
  | cons i is ih =>
    rw [forall_mem_cons] at h
    obtain ⟨b₁, w, hset, hw, hwords⟩ := set_eq h.1
    have hlen : b₁.words.length = b.words.length := by rw [hwords, length_set]
    obtain ⟨b', hrun, hlen', hall⟩ := ih (b := b₁) (by rw [hlen]; exact h.2)
    refine ⟨b', by rw [foldlM_cons, hset]; exact hrun, hlen'.trans hlen, fun j => ?_⟩
    rw [hall, contains_set hw hwords]
    simp [Bool.or_assoc]

/-! ## The row of `Init` -/

theorem lt_words_init {n j : Nat} (hj : j < n) : j / 64 < (init n).words.length := by
  unfold init
  split <;> simp [words] <;> omega

theorem contains_init (n j : Nat) : (init n).contains j = false := by
  have hzero : ∀ w ∈ (init n).words, w = 0 := by
    unfold init
    split <;> simp [words]
  unfold contains
  cases hw : (init n).words[j / 64]? with
  | none => simp
  | some w => simp [hzero w (mem_of_getElem? hw)]

end Bitmap

def Picking.marked (rs : List (Nat × Option Nat)) : List Nat :=
  (rs.zipIdx.filter fun q => q.1.2.isSome).map (·.2)

theorem Picking.length_readPass {p : Picking} {rslots : Nat → List (Option Nat)}
    {send : Nat → Completed → Bool} {i : Nat} {cmds : List Completed} {rs : List (Nat × Option Nat)}
    (h : p.readPass rslots send i cmds = .ok (some rs)) : rs.length = cmds.length := by
  induction cmds generalizing i rs with
  | nil => cases h; rfl
  | cons cmd rest ih =>
    rw [readPass] at h
    split at h <;> try cases h
    split at h <;> cases h
    next hrest => rw [length_cons, ih hrest, length_cons]

/-- Every sequence of `Set` on the bitmap of `n` indexes is in range, and then `Get` tells exactly
the indexes that were set; so the second pass of `_pickMulti` finds the marks of the first. -/
theorem bitmap_is_set :
    (∀ (n : Nat) (is : List Nat), (∀ i ∈ is, i < n) → ∃ b, is.foldlM Bitmap.set (.init n) = .ok b ∧
      ∀ j < n, b.get j = .ok (decide (j ∈ is))) ∧
    ∀ (p : Picking) rslots send (multi : List Completed) rs,
      p.readPass rslots send 0 multi = .ok (some rs) →
      ∃ b, (Picking.marked rs).foldlM Bitmap.set (.init multi.length) = .ok b ∧
        ∀ (j : Nat) r, rs[j]? = some r → b.get j = .ok r.2.isSome := by
  have hset : ∀ (n : Nat) (is : List Nat), (∀ i ∈ is, i < n) →
      ∃ b, is.foldlM Bitmap.set (.init n) = .ok b ∧ ∀ j < n, b.get j = .ok (decide (j ∈ is)) := by
    intro n is his
    obtain ⟨b, hrun, hlen, hall⟩ := Bitmap.foldlM_set (b := .init n) is fun i hi =>
      Bitmap.lt_words_init (his i hi)
    refine ⟨b, hrun, fun j hj => ?_⟩
    rw [Bitmap.get_eq (by rw [hlen]; exact Bitmap.lt_words_init hj), hall, Bitmap.contains_init,
      Bool.false_or]
  refine ⟨hset, fun p rslots send multi rs hpass => ?_⟩
  have hmem : ∀ j, j ∈ Picking.marked rs ↔ ∃ r, rs[j]? = some r ∧ r.2.isSome = true := by
    intro j
    simp [Picking.marked, mem_zipIdx_iff_getElem?]
  rw [← Picking.length_readPass hpass]
  obtain ⟨b, hrun, hget⟩ := hset rs.length (Picking.marked rs) fun i hi => by
    obtain ⟨r, hr, -⟩ := (hmem i).mp hi
    exact (List.getElem?_eq_some_iff.mp hr).1
  refine ⟨b, hrun, fun j r hr => ?_⟩
  rw [hget j (List.getElem?_eq_some_iff.mp hr).1]
  congr 1
  rw [Bool.eq_iff_iff, decide_eq_true_iff, hmem, hr]
  simp

/-- The first command of the batch goes to a replica. -/
def firstToReplica : Picking where
  wslots _ := some 0
  rslots := some fun _ => [some 1]
  sendToReplicas := some fun i _ => i == 0
  readNodeSelector := none

theorem bitmap_is_set_first :
    (∃ b, [5, 300].foldlM Bitmap.set (.init 301) = .ok b ∧ b.get 300 = .ok true ∧
      b.get 299 = .ok false) ∧
    ∃ rs, firstToReplica.readPass (fun _ => [some 1]) (fun i _ => i == 0) 0
        (.replicate 2 { newCompleted [lit "GET", lit "k"] with ks := 0 }) = .ok (some rs) ∧
      ∃ b, (Picking.marked rs).foldlM Bitmap.set (.init 2) = .ok b ∧ b.get 0 = .ok true ∧
        b.get 1 = .ok false := by
  constructor
  · obtain ⟨b, hrun, hget⟩ := bitmap_is_set.1 301 [5, 300] (by decide)
    exact ⟨b, hrun, hget 300 (by decide), hget 299 (by decide)⟩
  · obtain ⟨b, hrun, hget⟩ := bitmap_is_set.2 firstToReplica (fun _ => [some 1]) (fun i _ => i == 0)
      (.replicate 2 { newCompleted [lit "GET", lit "k"] with ks := 0 }) [(1, some 0), (0, none)]
      (by rfl)
    exact ⟨_, rfl, b, hrun, hget 0 _ rfl, hget 1 _ rfl⟩

end Rueidis
