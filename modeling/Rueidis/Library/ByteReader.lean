import Mathlib.Data.List.Basic

/-!
# Readers over an in-memory byte stream

A reader consumes bytes from the front of the stream and either returns a value or fails; the
bytes it leaves unread are returned in both cases, because a caller may go on after a failure.
-/

def ByteReader (ε α : Type) : Type := List UInt8 → Except ε α × List UInt8

namespace ByteReader

variable {ε α β : Type}

def bind (x : ByteReader ε α) (f : α → ByteReader ε β) : ByteReader ε β := fun r =>
  match x r with
  | (.ok a, r') => f a r'
  | (.error e, r') => (.error e, r')

instance : Monad (ByteReader ε) where
  pure a := fun r => (.ok a, r)
  bind := ByteReader.bind

def fail (e : ε) : ByteReader ε α := fun r => (.error e, r)

def attempt (x : ByteReader ε α) : ByteReader ε (Except ε α) := fun r => (.ok (x r).1, (x r).2)

variable {x : ByteReader ε α} {f : α → ByteReader ε β} {r r' : List UInt8}

theorem bind_ok {a : α} (h : x r = (.ok a, r')) : (x >>= f) r = f a r' := by
  change ByteReader.bind x f r = f a r'
  unfold ByteReader.bind
  rw [h]

theorem bind_error {e : ε} (h : x r = (.error e, r')) : (x >>= f) r = (.error e, r') := by
  change ByteReader.bind x f r = (.error e, r')
  unfold ByteReader.bind
  rw [h]

/-- The rule for a handler: the outcome of `x` becomes the value the handler inspects. -/
theorem attempt_bind {f : Except ε α → ByteReader ε β} {o : Except ε α} (h : x r = (o, r')) :
    (attempt x >>= f) r = f o r' := by
  apply bind_ok
  unfold attempt
  rw [h]

theorem bind_eq_ok {r'' : List UInt8} {b : β} (h : (x >>= f) r = (.ok b, r'')) :
    ∃ a r', x r = (.ok a, r') ∧ f a r' = (.ok b, r'') := by
  match hx : x r with
  | (.ok a, r') => exact ⟨a, r', rfl, by rwa [bind_ok hx] at h⟩
  | (.error e, r') =>
    rw [bind_error hx] at h
    cases h

theorem attempt_eq_ok {o : Except ε α} (h : attempt x r = (.ok o, r')) : x r = (o, r') := by
  cases h
  rfl

/-! ## Primitives -/

def readByte (eof : ε) : ByteReader ε UInt8
  | [] => (.error eof, [])
  | b :: r => (.ok b, r)

def peek (n : Nat) : ByteReader ε (List UInt8) := fun r => (.ok (r.take n), r)

def discard (eof : ε) (n : Nat) : ByteReader ε Unit := fun r =>
  if n ≤ r.length then (.ok (), r.drop n) else (.error eof, [])

/-- Exactly `n` bytes; a stream that ends early fails differently when nothing was read. -/
def readFull (eof unexpected : ε) (n : Nat) : ByteReader ε (List UInt8) := fun r =>
  if n ≤ r.length then (.ok (r.take n), r.drop n)
  else if r.isEmpty then (.error eof, []) else (.error unexpected, [])

/-- Split a stream after the first occurrence of a delimiter, which stays with the front part. -/
def splitAfter (d : UInt8) : List UInt8 → Option (List UInt8 × List UInt8)
  | [] => none
  | b :: r =>
    if b = d then some ([b], r)
    else (splitAfter d r).map fun p => (b :: p.1, p.2)

def readBytes (eof : ε) (d : UInt8) : ByteReader ε (List UInt8) := fun r =>
  match splitAfter d r with
  | some (line, r') => (.ok line, r')
  | none => (.error eof, [])

/-- Like `readBytes`, but the line has to fit a buffer of `size` bytes. -/
def readSlice (eof full : ε) (size : Nat) (d : UInt8) : ByteReader ε (List UInt8) := fun r =>
  match splitAfter d r with
  | some (line, r') => if line.length ≤ size then (.ok line, r') else (.error full, r.drop size)
  | none => if size ≤ r.length then (.error full, r.drop size) else (.error eof, [])

/-! ## Reading a known front part -/

theorem readByte_cons (eof : ε) (b : UInt8) (r : List UInt8) :
    readByte eof (b :: r) = (.ok b, r) := rfl

theorem discard_append (eof : ε) (xs r : List UInt8) (n : Nat) (hn : xs.length = n) :
    discard eof n (xs ++ r) = (.ok (), r) := by
  subst hn
  unfold discard
  rw [if_pos (by simp), List.drop_left]

theorem readFull_append (eof unexpected : ε) (xs r : List UInt8) (n : Nat) (hn : xs.length = n) :
    readFull eof unexpected n (xs ++ r) = (.ok xs, r) := by
  subst hn
  unfold readFull
  rw [if_pos (by simp), List.take_left, List.drop_left]

theorem splitAfter_append (d : UInt8) (xs r : List UInt8) (hx : d ∉ xs) :
    splitAfter d (xs ++ d :: r) = some (xs ++ [d], r) := by
  induction xs with
  | nil => simp [splitAfter]
  | cons x xs ih =>
    have hne : x ≠ d := fun h => hx (by simp [h])
    have hxs : d ∉ xs := fun h => hx (by simp [h])
    rw [List.cons_append, splitAfter, if_neg hne, ih hxs]
    rfl

theorem readBytes_append (eof : ε) (d : UInt8) (xs r : List UInt8) (hx : d ∉ xs) :
    readBytes eof d (xs ++ d :: r) = (.ok (xs ++ [d]), r) := by
  unfold readBytes
  rw [splitAfter_append d xs r hx]

theorem readSlice_append (eof full : ε) (size : Nat) (d : UInt8) (xs r : List UInt8)
    (hx : d ∉ xs) (hs : xs.length < size) :
    readSlice eof full size d (xs ++ d :: r) = (.ok (xs ++ [d]), r) := by
  unfold readSlice
  rw [splitAfter_append d xs r hx]
  dsimp only
  rw [if_pos (by simp only [List.length_append, List.length_singleton]; omega)]

end ByteReader
