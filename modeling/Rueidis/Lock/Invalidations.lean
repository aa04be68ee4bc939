import Rueidis.Cache.Marshal
import Rueidis.Lock.Model

/-!
# Which gates an invalidation wakes

`onInvalidations` reads the index and the lock name back from an invalidated key: it cuts the prefix
and one byte off, splits at the first colon, and uses the number as an index.  Nothing is checked,
so a key that merely starts with the prefix can panic or wake a gate it has nothing to do with.

A signal is a send to a channel of capacity one that is given up when the channel is full.
-/

namespace Rueidis.Lock

open Decimal List

/-- The number of key channels of a gate is an `int32`. -/
structure Locker where
  opt : LockOption
  totalcnt_lt : opt.totalcnt < 2 ^ 31

inductive Signal where
  | csc (name : Bytes) (i : Nat)
  | ch (name : Bytes)
deriving DecidableEq, Repr

/-- `n, _ := strconv.Atoi(text)`: 0 for a text that is no number, and the nearest `int` for a number
that is none. -/
def atoi (text : Bytes) : Int := max (-2 ^ 63) (min (2 ^ 63 - 1) ((readInt text).getD 0))

def splitColon (text : Bytes) : Option (Bytes × Bytes) :=
  match text.dropWhile (· != 58) with
  | [] => none
  | _ :: name => some (text.takeWhile (· != 58), name)

namespace Locker

variable (m : Locker) (gates : List Bytes)

/-- What the text behind the prefix and one byte signals; `gates` has the names with a gate. -/
def wake (text : Bytes) : Except Panic (List Signal) :=
  match splitColon text with
  | none => .ok []
  | some (number, name) =>
    if name ∈ gates then
      if 0 ≤ atoi number ∧ atoi number < m.opt.totalcnt then
        .ok [.csc name (atoi number).toNat, .ch name]
      else .error indexOutOfRange
    else .ok []

def onInvalidation (k : Bytes) : Except Panic (List Signal) :=
  if m.opt.keyPrefix.isPrefixOf k then
    if m.opt.keyPrefix.length + 1 ≤ k.length then
      m.wake gates (k.drop (m.opt.keyPrefix.length + 1))
    else .error sliceBoundsOutOfRange
  else .ok []

/-- The signals of every message; `none` is a flush, which signals every channel there is. -/
def onInvalidations : (messages : Option (List Bytes)) → Except Panic (List (List Signal))
  | none => .ok (gates.map fun name => (List.range m.opt.totalcnt).map (.csc name) ++ [.ch name])
  | some keys => keys.mapM (m.onInvalidation gates)

/-- A key of a lock signals the gate of the lock and the channel of the key, another key nothing. -/
def Right (k : Bytes) (signals : List Signal) : Prop :=
  (∃ name ∈ gates, ∃ i < m.opt.totalcnt, k = keyname m.opt name i ∧
    signals = [.csc name i, .ch name]) ∨
  (∀ name ∈ gates, ∀ i < m.opt.totalcnt, k ≠ keyname m.opt name i) ∧ signals = []

/-- A key that starts with the prefix goes on after it, and if from the second byte on it reads as a
number and the name of a gate, it is one of the keys of that lock. -/
def Fit (k : Bytes) : Prop :=
  ∀ rest, k = m.opt.keyPrefix ++ rest → ∃ b tail, rest = b :: tail ∧
    ∀ number name, 58 ∉ number → tail = number ++ 58 :: name → name ∈ gates →
      b = 58 ∧ ∃ i < m.opt.totalcnt, number = numeral i

end Locker

theorem splitColon_eq_some_iff {text number name : Bytes} :
    splitColon text = some (number, name) ↔ 58 ∉ number ∧ text = number ++ 58 :: name := by
  constructor
  · intro h
    have htext := takeWhile_append_dropWhile (p := (· != 58)) (l := text)
    unfold splitColon at h
    split at h
    · cases h
    next b rest hdrop =>
      cases h
      have hb : b = 58 := by
        have := head?_dropWhile_not (· != 58) text
        rw [hdrop] at this
        simpa using this
      refine ⟨fun hmem => ?_, by rw [hdrop, hb] at htext; exact htext.symm⟩
      simpa using all_eq_true.mp all_takeWhile 58 hmem
  · rintro ⟨hnumber, rfl⟩
    have hall : ∀ b ∈ number, (b != 58) = true :=
      fun b hb => bne_iff_ne.mpr fun h => hnumber (h ▸ hb)
    rw [splitColon, dropWhile_append_of_pos hall, takeWhile_append_of_pos hall]
    simp

theorem atoi_numeral {n : Nat} (hn : n < 2 ^ 31) : atoi (numeral n) = n := by
  rw [atoi, readInt_numeral, Option.getD_some]
  omega

theorem keyname_eq (opt : LockOption) (name : Bytes) (i : Nat) :
    keyname opt name i = opt.keyPrefix ++ 58 :: (numeral i ++ 58 :: name) := by
  have hcolon : lit ":" = [58] := rfl
  simp [keyname, hcolon]

theorem colon_notMem_numeral (i : Nat) : 58 ∉ numeral i :=
  fun h => absurd (isDigit_of_mem_numeral h) (by decide)

section Key

variable {m : Locker} {gates : List Bytes} {k tail : Bytes} {b : UInt8}

/-- The keys of locks among those that start with the prefix. -/
theorem eq_keyname_iff (hk : k = m.opt.keyPrefix ++ b :: tail) (name : Bytes) (i : Nat) :
    k = keyname m.opt name i ↔ b = 58 ∧ splitColon tail = some (numeral i, name) := by
  rw [hk, keyname_eq, append_cancel_left_eq, cons.injEq, splitColon_eq_some_iff]
  simp [colon_notMem_numeral]

theorem wake_right_iff (hk : k = m.opt.keyPrefix ++ b :: tail) :
    (∃ signals, m.wake gates tail = .ok signals ∧ m.Right gates k signals) ↔
      ∀ number name, splitColon tail = some (number, name) → name ∈ gates →
        b = 58 ∧ ∃ i < m.opt.totalcnt, number = numeral i := by
  have hname := eq_keyname_iff hk
  unfold Locker.wake
  cases hsplit : splitColon tail with
  | none =>
    refine iff_of_true ⟨[], rfl, Or.inr ⟨fun name _ i _ h => ?_, rfl⟩⟩ nofun
    cases hsplit.symm.trans ((hname name i).mp h).2
  | some p =>
    obtain ⟨number, name⟩ := p
    have hkey : ∀ {name' i}, k = keyname m.opt name' i →
        b = 58 ∧ number = numeral i ∧ name' = name := by
      intro name' i h
      have hb := (hname name' i).mp h
      cases hsplit.symm.trans hb.2
      exact ⟨hb.1, rfl, rfl⟩
    dsimp only
    by_cases hgate : name ∈ gates
    · rw [if_pos hgate]
      constructor
      · -- a key that signals something is one of a lock, and then of this one
        rintro ⟨signals, hwake, hright⟩ number' name' heq -
        cases heq
        rcases hright with ⟨name', -, i, hi, h, -⟩ | ⟨-, rfl⟩
        · exact ⟨(hkey h).1, i, hi, (hkey h).2.1⟩
        · split at hwake <;> cases hwake
      · intro h
        obtain ⟨hb, i, hi, rfl⟩ := h number name rfl hgate
        have hatoi := atoi_numeral (Nat.lt_trans hi m.totalcnt_lt)
        rw [hatoi, if_pos (by omega), Int.toNat_natCast]
        exact ⟨_, rfl, Or.inl ⟨name, hgate, i, hi, (hname name i).mpr ⟨hb, hsplit⟩, rfl⟩⟩
    · rw [if_neg hgate]
      refine iff_of_true ⟨[], rfl, Or.inr ⟨fun name' hmem i _ h => ?_, rfl⟩⟩ ?_
      · exact hgate ((hkey h).2.2 ▸ hmem)
      · intro number' name' heq hmem
        cases heq
        exact absurd hmem hgate

theorem onInvalidation_right_iff (k : Bytes) :
    (∃ signals, m.onInvalidation gates k = .ok signals ∧ m.Right gates k signals) ↔ m.Fit gates k := by
  unfold Locker.onInvalidation
  by_cases hpre : m.opt.keyPrefix.isPrefixOf k = true
  · obtain ⟨rest, rfl⟩ := isPrefixOf_iff_prefix.mp hpre
    cases rest with
    | nil =>
      rw [if_pos hpre, if_neg (by simp)]
      exact iff_of_false nofun fun h => by simpa using h [] rfl
    | cons b tail =>
      have hdrop : (m.opt.keyPrefix ++ b :: tail).drop (m.opt.keyPrefix.length + 1) = tail := by simp
      rw [if_pos hpre, if_pos (by simp), hdrop, wake_right_iff rfl]
      simp only [Locker.Fit, append_cancel_left_eq, splitColon_eq_some_iff, and_imp]
      constructor
      · exact fun h rest hrest => ⟨b, tail, hrest.symm, h⟩
      · intro h
        obtain ⟨_, _, heq, h⟩ := h _ rfl
        cases heq
        exact h
  · rw [if_neg hpre]
    have hno : ∀ rest, k ≠ m.opt.keyPrefix ++ rest :=
      fun rest h => hpre (List.isPrefixOf_iff_prefix.mpr ⟨rest, h.symm⟩)
    refine iff_of_true ⟨[], rfl, Or.inr ⟨fun name _ i _ h => ?_, rfl⟩⟩ fun rest h => absurd h (hno rest)
    exact hno _ (h.trans (keyname_eq _ _ _))

end Key

/-- Every list of invalidated keys is handled without a panic and signals exactly the gates and
channels of the locks it names, if and only if every key of it is fit. -/
theorem invalidations_right_iff (m : Locker) (gates : List Bytes) (keys : List Bytes) :
    (∃ signals, m.onInvalidations gates (some keys) = .ok signals ∧
      List.Forall₂ (m.Right gates) keys signals) ↔ ∀ k ∈ keys, m.Fit gates k := by
  show (∃ signals, keys.mapM (m.onInvalidation gates) = .ok signals ∧ _) ↔ _
  induction keys with
  | nil => exact iff_of_true ⟨[], rfl, .nil⟩ nofun
  | cons k keys ih =>
    rw [forall_mem_cons, ← ih, ← onInvalidation_right_iff, mapM_cons]
    constructor
    · rintro ⟨signals, hrun, hright⟩
      cases hout : m.onInvalidation gates k with
      | error e => simp [hout, bind, Except.bind] at hrun
      | ok out =>
        cases houts : keys.mapM (m.onInvalidation gates) with
        | error e => simp [hout, houts, bind, Except.bind] at hrun
        | ok outs =>
          rw [hout, houts] at hrun
          cases hrun
          obtain ⟨hk, hkeys⟩ := forall₂_cons.mp hright
          exact ⟨⟨out, rfl, hk⟩, outs, rfl, hkeys⟩
    · rintro ⟨⟨out, hout, hk⟩, outs, houts, hkeys⟩
      exact ⟨out :: outs, by rw [hout, houts]; rfl, .cons hk hkeys⟩

def threeKeys : Locker := ⟨⟨lit "p", 2, by decide⟩, by decide⟩

/-- With the gate of `lock` open: a key with an index that no lock has, and the prefix itself, make
the handler panic, and a key that is none of a lock wakes it. -/
theorem invalidations_wrong :
    threeKeys.onInvalidations [lit "lock"] (some [lit "p:3:lock"]) = .error indexOutOfRange ∧
      threeKeys.onInvalidations [lit "lock"] (some [lit "p"]) = .error sliceBoundsOutOfRange ∧
      threeKeys.onInvalidations [lit "lock"] (some [lit "page:lock"]) =
        .ok [[.csc (lit "lock") 0, .ch (lit "lock")]] := by
  decide

end Rueidis.Lock
