import Mathlib.Data.List.Basic

/-!
# Copying a byte stream to a writer block by block

A copy reads a block from the front of a stream, hands it to a writer, and stops at the first write
that fails or takes less than the block.  So the count of written bytes can lag behind the count of
consumed bytes.
-/

/-- A destination over states `σ` with errors `ω`: a write returns the count it claims to have
taken, which nothing forces into the range of the block. -/
structure BlockWriter (σ ω : Type) where
  write : σ → List UInt8 → σ × Int × Option ω

inductive CopyErr (ω : Type) where
  | write (e : ω)
  | invalidWrite
  | shortWrite
deriving DecidableEq, Repr

structure Copied (σ ω : Type) where
  state : σ
  written : Nat
  err : Option (CopyErr ω)
  unread : List UInt8

namespace BlockWriter

open List

variable {σ ω : Type} (w : BlockWriter σ ω)

def copyBlock (s : σ) (b : List UInt8) : σ × Nat × Option (CopyErr ω) :=
  let (s', nw, ew) := w.write s b
  if nw < 0 ∨ (b.length : Int) < nw then
    (s', 0, some ((ew.map .write).getD .invalidWrite))
  else
    match ew with
    | some e => (s', nw.toNat, some (.write e))
    | none => if nw.toNat = b.length then (s', nw.toNat, none) else (s', nw.toNat, some .shortWrite)

/-- The size of the next block: what the source has at hand, at least one byte, and no more than
the limit, the copy buffer and the stream allow. -/
def blockSize (block : Nat → Nat) (limit : Nat) (r : List UInt8) : Nat :=
  max 1 (min (block r.length) (min limit (min (32 * 1024) r.length)))

/-- Copy at most `limit` bytes; `block` says how many bytes a read returns when so many are left.
A block takes at least one byte, so `fuel` never runs out before the limit when they start equal. -/
def copy (block : Nat → Nat) : Nat → Nat → σ → List UInt8 → Copied σ ω
  | 0, _, s, r => ⟨s, 0, none, r⟩
  | fuel + 1, limit, s, r =>
    if limit = 0 ∨ r = [] then ⟨s, 0, none, r⟩
    else
      let nr := blockSize block limit r
      match w.copyBlock s (r.take nr) with
      | (s', nw, some e) => ⟨s', nw, some e, r.drop nr⟩
      | (s', nw, none) =>
        let c := copy block fuel (limit - nr) s' (r.drop nr)
        { c with written := nw + c.written }

def blocks (block : Nat → Nat) : Nat → Nat → List UInt8 → List (List UInt8)
  | 0, _, _ => []
  | fuel + 1, limit, r =>
    if limit = 0 ∨ r = [] then []
    else
      let nr := blockSize block limit r
      r.take nr :: blocks block fuel (limit - nr) (r.drop nr)

def refused (s : σ) : List (List UInt8) → Nat
  | [] => 0
  | b :: bs =>
    match w.copyBlock s b with
    | (_, nw, some _) => b.length - nw
    | (s', _, none) => refused s' bs

theorem copyBlock_le (s : σ) (b : List UInt8) : (w.copyBlock s b).2.1 ≤ b.length := by
  unfold copyBlock
  dsimp only
  split
  · exact Nat.zero_le _
  · rename_i hrange
    have hnat : (w.write s b).2.1.toNat ≤ b.length := by
      change ¬ ((w.write s b).2.1 < 0 ∨ (b.length : Int) < (w.write s b).2.1) at hrange
      omega
    split
    · exact hnat
    · split <;> exact hnat

theorem copyBlock_of_ok {s s' : σ} {b : List UInt8} {n : Nat}
    (h : w.copyBlock s b = (s', n, none)) : n = b.length := by
  unfold copyBlock at h
  dsimp only at h
  split at h
  · cases h
  · split at h
    · cases h
    · split at h
      · rename_i hlen
        cases h
        exact hlen
      · cases h

theorem blockSize_pos (block : Nat → Nat) (limit : Nat) (r : List UInt8) :
    0 < blockSize block limit r := by
  unfold blockSize
  omega

theorem blockSize_le (block : Nat → Nat) {limit : Nat} {r : List UInt8} (hl : limit ≠ 0)
    (hr : r ≠ []) : blockSize block limit r ≤ limit ∧ blockSize block limit r ≤ r.length := by
  have hlen : 0 < r.length := length_pos_of_ne_nil hr
  unfold blockSize
  omega

/-- What a copy of `limit` bytes does to the stream: it consumes what was written and, on top of
that, what the writer refused; without an error everything was written. -/
theorem copy_spec (block : Nat → Nat) (fuel limit : Nat) (s : σ) (r : List UInt8)
    (hf : limit ≤ fuel) (hr : limit ≤ r.length) :
    (w.copy block fuel limit s r).written + w.refused s (blocks block fuel limit r) ≤ limit ∧
    (w.copy block fuel limit s r).unread =
      r.drop ((w.copy block fuel limit s r).written + w.refused s (blocks block fuel limit r)) ∧
    ((w.copy block fuel limit s r).err = none →
      (w.copy block fuel limit s r).written = limit ∧
        w.refused s (blocks block fuel limit r) = 0) := by
  induction fuel generalizing limit s r with
  | zero =>
    have hzero : limit = 0 := by omega
    simp [copy, blocks, refused, hzero]
  | succ fuel ih =>
    unfold copy blocks
    by_cases hstop : limit = 0 ∨ r = []
    · have hzero : limit = 0 := by
        rcases hstop with h | h
        · exact h
        · rw [h] at hr
          simpa using hr
      simp [hzero, refused]
    · rw [if_neg hstop, if_neg hstop]
      rw [not_or] at hstop
      obtain ⟨hlim, hlen⟩ := blockSize_le block hstop.1 hstop.2
      have hpos := blockSize_pos block limit r
      set nr := blockSize block limit r with hnr
      have htake : (r.take nr).length = nr := by simp [hlen]
      have hle := w.copyBlock_le s (r.take nr)
      rw [htake] at hle
      match hblock : w.copyBlock s (r.take nr) with
      | (s', nw, some e) =>
        rw [hblock] at hle
        have hsum : nw + (nr - nw) = nr := by dsimp only at hle; omega
        simp only [refused, hblock, htake, hsum]
        exact ⟨hlim, trivial, by simp⟩
      | (s', nw, none) =>
        have hnw : nw = nr := by rw [w.copyBlock_of_ok hblock, htake]
        obtain ⟨hbound, hunread, hdone⟩ := ih (limit - nr) s' (r.drop nr) (by omega)
          (by rw [length_drop]; omega)
        simp only [refused, hblock, hnw]
        refine ⟨by omega, ?_, fun herr => ?_⟩
        · rw [hunread, drop_drop, Nat.add_assoc]
        · obtain ⟨hw, hz⟩ := hdone herr
          exact ⟨by omega, hz⟩

/-! ## Writers that take everything -/

def Accepts (log : σ → List UInt8) : Prop :=
  ∀ s b, ∃ s', w.write s b = (s', (b.length : Int), none) ∧ log s' = log s ++ b

variable {w}

theorem Accepts.copyBlock {log : σ → List UInt8} (hw : w.Accepts log) (s : σ) (b : List UInt8) :
    ∃ s', w.copyBlock s b = (s', b.length, none) ∧ log s' = log s ++ b := by
  obtain ⟨s', hwrite, hlog⟩ := hw s b
  refine ⟨s', ?_, hlog⟩
  unfold BlockWriter.copyBlock
  rw [hwrite]
  dsimp only
  rw [if_neg (by omega), if_pos (by omega), Int.toNat_natCast]

theorem Accepts.copy {log : σ → List UInt8} (hw : w.Accepts log) (block : Nat → Nat)
    (fuel limit : Nat) (s : σ) (r : List UInt8) (hf : limit ≤ fuel) (hr : limit ≤ r.length) :
    ∃ s', w.copy block fuel limit s r = ⟨s', limit, none, r.drop limit⟩ ∧
      log s' = log s ++ r.take limit := by
  induction fuel generalizing limit s r with
  | zero =>
    have hzero : limit = 0 := by omega
    exact ⟨s, by rw [hzero]; rfl, by simp [hzero]⟩
  | succ fuel ih =>
    unfold BlockWriter.copy
    by_cases hstop : limit = 0 ∨ r = []
    · have hzero : limit = 0 := by
        rcases hstop with h | h
        · exact h
        · rw [h] at hr
          simpa using hr
      rw [if_pos hstop, hzero]
      exact ⟨s, rfl, by simp⟩
    · rw [if_neg hstop]
      rw [not_or] at hstop
      obtain ⟨hlim, hlen⟩ := blockSize_le block hstop.1 hstop.2
      have hpos := blockSize_pos block limit r
      obtain ⟨s₁, hblock, hlog₁⟩ := hw.copyBlock s (r.take (blockSize block limit r))
      obtain ⟨s₂, hcopy, hlog₂⟩ := ih (limit - blockSize block limit r) s₁
        (r.drop (blockSize block limit r)) (by omega) (by rw [length_drop]; omega)
      have hsum : blockSize block limit r + (limit - blockSize block limit r) = limit := by omega
      refine ⟨s₂, ?_, ?_⟩
      · dsimp only
        rw [hblock]
        dsimp only
        rw [hcopy, length_take, Nat.min_eq_left hlen, drop_drop, hsum]
      · -- the first block and the others are one front part
        rw [hlog₂, hlog₁, append_assoc, ← take_add, hsum]

end BlockWriter
