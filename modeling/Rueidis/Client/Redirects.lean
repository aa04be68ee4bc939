import Rueidis.Client.Standalone
import Rueidis.Library.Decimal

/-!
# Which error texts are read as redirections

`IsMoved`, `IsAsk` and `IsRedirect` look at the first letters of an error and then index its blank
separated fields.  An error text is free: a script raises whatever it likes.
-/

namespace Rueidis

open Decimal List Option

/-- `s` is `word`, the number of a slot if there is one, and an address, a blank between each
two. -/
structure Redirection (word : Bytes) (slotted : Bool) (s addr : Bytes) : Prop where
  nonempty : addr ≠ []
  unbroken : 32 ∉ addr
  text : ∃ slot : Fin 16384,
    s = [32].intercalate (word :: ((if slotted then [numeral slot] else []) ++ [addr]))

/-- The host of an address whose host has colons of its own and no bracket before them. -/
def bareIPv6 (addr : Bytes) : Option (Bytes × Bytes) :=
  (splitLastColon addr).filter fun (host, _) => host.contains 58 && host.headD 91 != 91

def bracketed (addr : Bytes) : Bytes :=
  match bareIPv6 addr with
  | some (host, port) => lit "[" ++ host ++ lit "]:" ++ port
  | none => addr

/-- A classifier's answer to `s` is right: it returns, and with `a` exactly when `s` is a
redirection to the address `a` stands for. -/
def ReadsRight (answer : Except Panic (Option Bytes)) (word : Bytes) (slotted : Bool) (s : Bytes) :
    Prop :=
  ∃ found, answer = .ok found ∧
    ∀ a, found = some a ↔ ∃ addr, Redirection word slotted s addr ∧ a = bracketed addr

/-- What a text that starts with the keyword has to be to be read rightly. -/
def WellMeant (word : Bytes) (slotted : Bool) (s : Bytes) : Prop :=
  word <+: s → ∃ addr, Redirection word slotted s addr ∧ ¬(46 ∈ addr ∧ (bareIPv6 addr).isSome)

theorem splitLastColon_eq_some {addr host port : Bytes}
    (h : splitLastColon addr = some (host, port)) : addr = host ++ 58 :: port := by
  unfold splitLastColon at h
  rw [splitAt_eq] at h
  split at h
  · cases h
  next p b hs heq =>
    cases h
    obtain ⟨rfl, hdrop⟩ := Prod.mk.inj heq
    have hlt : addr.reverse.idxOf 58 < addr.reverse.length := by
      by_contra hge
      rw [drop_eq_nil_of_le (Nat.le_of_not_lt hge)] at hdrop
      cases hdrop
    -- the byte the reversed text is cut at is the colon that was looked for
    have hb : b = 58 := by
      rw [drop_eq_getElem_cons hlt] at hdrop
      exact ((cons.inj hdrop).1.symm.trans (getElem_idxOf hlt))
    have := congrArg reverse (take_append_drop (addr.reverse.idxOf 58) addr.reverse)
    rw [hdrop, hb] at this
    simpa using this.symm

theorem fixIPv6HostPort_of_no_dot {addr : Bytes} (h : 46 ∉ addr) :
    fixIPv6HostPort addr = bracketed addr := by
  have hcolon : lit ":" = [58] := rfl
  unfold fixIPv6HostPort bracketed bareIPv6
  cases hs : splitLastColon addr with
  | none => simp
  | some hp =>
    -- the address starts as its host does, and an empty host has no colon to be put in brackets
    have haddr := splitLastColon_eq_some hs
    cases hhost : hp.1 with
    | nil => simp_all [Option.filter, joinHostPort]
    | cons b host =>
      by_cases hb : b = 91 <;> by_cases hc : 58 = b ∨ 58 ∈ host <;>
        simp_all [Option.filter, joinHostPort]

theorem bracketed_ne {addr : Bytes} (h : (bareIPv6 addr).isSome) : bracketed addr ≠ addr := by
  intro heq
  obtain ⟨⟨host, port⟩, hbare⟩ := isSome_iff_exists.mp h
  have hfound := filter_eq_some_iff.mp hbare
  have haddr := splitLastColon_eq_some hfound.1
  have hbracket : lit "[" = [91] := rfl
  -- in brackets the address starts with one, and the host it is made of does not
  unfold bracketed at heq
  rw [hbare] at heq
  cases host with
  | nil => simp at hfound
  | cons b host => simp_all

variable {word s addr : Bytes} {slotted : Bool}

theorem Redirection.splitOn (h : Redirection word slotted s addr) (hword : 32 ∉ word) :
    (s.splitOn 32)[if slotted then 2 else 1]? = some addr := by
  obtain ⟨slot, rfl⟩ := h.text
  rw [splitOn_intercalate]
  · cases slotted <;> rfl
  · have hnum : 32 ∉ numeral slot := fun hmem => absurd (isDigit_of_mem_numeral hmem) (by decide)
    have := h.unbroken
    cases slotted <;> simp_all
  · simp

theorem Redirection.starts (h : Redirection word slotted s addr) : word <+: s := by
  obtain ⟨slot, rfl⟩ := h.text
  cases slotted <;> simp [intercalate]

theorem readsRight_iff (slotted : Bool) (hword : 32 ∉ word) :
    ReadsRight (redirectAddr word (if slotted then 2 else 1) s) word slotted s ↔
      WellMeant word slotted s := by
  unfold ReadsRight WellMeant redirectAddr
  by_cases hpre : word.isPrefixOf s
  · rw [if_pos hpre]
    constructor
    · rintro ⟨found, hfound, hright⟩ -
      split at hfound
      next field hfield =>
        cases hfound
        obtain ⟨addr, hr, ha⟩ := (hright _).mp rfl
        obtain rfl := some.inj ((hr.splitOn hword).symm.trans hfield)
        refine ⟨_, hr, fun ⟨hdot, hbare⟩ => bracketed_ne hbare (ha.symm.trans ?_)⟩
        simp [fixIPv6HostPort, hdot]
      · cases hfound
    · intro hmeant
      obtain ⟨addr, hr, hplain⟩ := hmeant (List.isPrefixOf_iff_prefix.mp hpre)
      have hfix : fixIPv6HostPort addr = bracketed addr := by
        by_cases hdot : 46 ∈ addr
        · have hbare : bareIPv6 addr = none := by simpa [hdot] using hplain
          simp [fixIPv6HostPort, bracketed, hbare, hdot]
        · exact fixIPv6HostPort_of_no_dot hdot
      rw [hr.splitOn hword]
      refine ⟨_, rfl, fun a => ⟨fun h => ⟨addr, hr, ?_⟩, fun ⟨addr', hr', ha⟩ => ?_⟩⟩
      · exact (some.inj h).symm.trans hfix
      · cases (hr'.splitOn hword).symm.trans (hr.splitOn hword)
        rw [ha, hfix]
  · rw [if_neg hpre]
    have hno : ¬ word <+: s := mt isPrefixOf_iff_prefix.mpr hpre
    refine ⟨fun _ h => absurd h hno, fun _ => ⟨none, rfl, fun a => ⟨nofun, ?_⟩⟩⟩
    exact fun ⟨_, hr, _⟩ => absurd hr.starts hno

/-- Every error text is read rightly by `IsMoved`, `IsAsk` and `IsRedirect` exactly when, to each,
it is well meant. -/
theorem redirects_read_right_iff (m : RedisMessage) :
    (ReadsRight (isMoved m) (lit "MOVED") true m.string ↔ WellMeant (lit "MOVED") true m.string) ∧
    (ReadsRight (isAsk m) (lit "ASK") true m.string ↔ WellMeant (lit "ASK") true m.string) ∧
    (ReadsRight (isRedirect m) (lit "REDIRECT") false m.string ↔
      WellMeant (lit "REDIRECT") false m.string) :=
  ⟨readsRight_iff true (by decide), readsRight_iff true (by decide),
    readsRight_iff false (by decide)⟩

/-- A blank with nothing behind it is read as the empty address. -/
example : ¬ ReadsRight (isMoved { bytes := some (lit "MOVED 1 "), typ := typeSimpleErr })
    (lit "MOVED") true (lit "MOVED 1 ") := by
  rintro ⟨found, hfound, hright⟩
  cases hfound
  obtain ⟨addr, hr, -⟩ := (hright []).mp rfl
  exact hr.nonempty (some.inj (hr.splitOn (by decide))).symm

/-- An error that merely starts as a redirection makes the classifier panic. -/
theorem isAsk_of_asked :
    isAsk { bytes := some (lit "ASKED"), typ := typeSimpleErr } = .error indexOutOfRange ∧
      ¬ ReadsRight (isAsk { bytes := some (lit "ASKED"), typ := typeSimpleErr }) (lit "ASK") true
        (lit "ASKED") := by
  have h : isAsk { bytes := some (lit "ASKED"), typ := typeSimpleErr } = .error indexOutOfRange := by
    decide
  exact ⟨h, fun ⟨_, hok, _⟩ => nomatch h.symm.trans hok⟩

end Rueidis
