import Rueidis.Cache.MarshalRoundTrip
import Mathlib.Algebra.Ring.Int.Defs
import Mathlib.Computability.StateTransition

/-!
# Unmarshalling any buffer

Where `CacheUnmarshalView` panics.  The eight bytes of a message are a signed number that comes from
the buffer: the number of elements is handed to `make` as it is, and the length of a text is only
compared with the end of the buffer, in wrapping arithmetic.
-/

namespace Rueidis

open RedisMessage

variable {out : Except UnmarshalErr (RedisMessage × Int64)}

def headerAt (buf : Bytes) (k : Nat) : Option (UInt8 × Int64) :=
  if k + 9 ≤ buf.length then some (buf.getD k 0, int64At (Int64.ofNat (k + 1)) buf) else none

/-- The length of a text from offset `k` on leads forward and not out of the 64-bit range. -/
def TextFits (k : Nat) (size : Int64) : Prop := 0 ≤ size.toInt ∧ k + size.toInt < 2 ^ 63

/-- The code can use the length in the header of a message at offset `k`. -/
def HeaderFits (k : Nat) (typ : UInt8) (size : Int64) : Prop :=
  (aggregate typ → Makes maxMessages size) ∧
    (¬ numeric typ → ¬ aggregate typ → TextFits (k + 9) size)

instance (k : Nat) (size : Int64) : Decidable (TextFits k size) :=
  inferInstanceAs (Decidable (_ ∧ _))

/-! ## The content of one message -/

variable {k : Nat} {values : Nat → Except UnmarshalErr (List RedisMessage × Int64)}
  {m : RedisMessage} {size : Int64}

theorem toInt_ofNat_add (hk : k ≤ maxAlloc) (size : Int64) : (Int64.ofNat k + size).toInt =
      if k + size.toInt < 2 ^ 63 then k + size.toInt else k + size.toInt - 2 ^ 64 := by
  have hlow := Int64.le_toInt size
  have hhigh := Int64.toInt_lt size
  have hk' : k ≤ 2 ^ 48 := hk
  rw [Int64.toInt_add, Int64.toInt_ofNat_of_lt (lt_of_le_maxAlloc hk), Int.bmod_def]
  split <;> split <;> omega

section Content

variable (values : Nat → Except UnmarshalErr (List RedisMessage × Int64)) (m : RedisMessage)
  (size : Int64) (k : Nat) (buf : Bytes)

/-- The ways in which what is behind the header of a message, from offset `k` on, is
unmarshalled. -/
inductive Content : Except UnmarshalErr (RedisMessage × Int64) → Prop
  | number (htyp : numeric m.typ) : Content (.ok ({ m with intlen := size }, Int64.ofNat k))
  | unmade (htyp : aggregate m.typ) (hmakes : ¬ Makes maxMessages size) :
      Content (.error (.panic lenOutOfRange))
  | elements (htyp : aggregate m.typ) (hmakes : Makes maxMessages size) :
      Content ((values size.toNatClampNeg).map fun out => (m.setValues out.1, out.2))
  | outside (hnum : ¬ numeric m.typ) (hagg : ¬ aggregate m.typ) (hfits : ¬ TextFits k size) :
      Content (.error (.panic sliceBoundsOutOfRange))
  | cut (hnum : ¬ numeric m.typ) (hagg : ¬ aggregate m.typ) (hfits : TextFits k size)
      (hlen : buf.length < k + size.toNatClampNeg) : Content (.error .cacheUnmarshal)
  | text (hnum : ¬ numeric m.typ) (hagg : ¬ aggregate m.typ) (hfits : TextFits k size)
      (hlen : k + size.toNatClampNeg ≤ buf.length) :
      Content (.ok (m.setString ((buf.drop k).take size.toNatClampNeg),
        Int64.ofNat (k + size.toNatClampNeg)))

theorem content_of_unmarshal (hk : k ≤ buf.length) (hbuf : buf.length ≤ maxAlloc) :
    Content values m size k buf (unmarshalContent values m size (Int64.ofNat k) buf) := by
  have hk' : k ≤ maxAlloc := Nat.le_trans hk hbuf
  have halloc : maxAlloc = 2 ^ 48 := rfl
  have hsum := toInt_ofNat_add hk' size
  have hlow := Int64.le_toInt size
  have hclamp : (size.toNatClampNeg : Int) = max size.toInt 0 := Int.ofNat_toNat size.toInt
  have hbehind : Int64.ofNat buf.length < Int64.ofNat k + size ↔
      buf.length < (Int64.ofNat k + size).toInt := by
    rw [Int64.lt_iff_toInt_lt, Int64.toInt_ofNat_of_lt (lt_of_le_maxAlloc hbuf)]
  have hback : Int64.ofNat k + size < Int64.ofNat k ↔ (Int64.ofNat k + size).toInt < k := by
    rw [Int64.lt_iff_toInt_lt, Int64.toInt_ofNat_of_lt (lt_of_le_maxAlloc hk')]
  unfold unmarshalContent
  by_cases hnum : numeric m.typ
  · rw [if_pos hnum]
    exact .number hnum
  rw [if_neg hnum]
  by_cases hagg : aggregate m.typ
  · rw [if_pos hagg]
    by_cases hmakes : Makes maxMessages size
    · have helems : Content values m size k buf _ := .elements hagg hmakes
      rw [if_neg (not_not_intro hmakes)]
      cases hv : values size.toNatClampNeg <;> rwa [hv] at helems
    · rw [if_pos hmakes]
      exact .unmade hagg hmakes
  rw [if_neg hagg]
  by_cases hfits : TextFits k size
  · -- the sum is the sum of the integers, and the comparison with the end of the buffer is right
    have hfits' : 0 ≤ size.toInt ∧ k + size.toInt < 2 ^ 63 := hfits
    rw [if_pos hfits'.2] at hsum
    by_cases hlen : buf.length < k + size.toNatClampNeg
    · rw [if_pos (hbehind.mpr (by omega))]
      exact .cut hnum hagg hfits hlen
    · have hstop : Int64.ofNat k + size = Int64.ofNat (k + size.toNatClampNeg) := by
        apply Int64.toInt_inj.mp
        rw [hsum, Int64.toInt_ofNat_of_lt (by omega)]
        omega
      rw [if_neg (fun h => absurd (hbehind.mp h) (by omega)),
        if_neg (fun h => absurd (hback.mp h) (by omega)), hstop,
        Int64.toNatClampNeg_ofNat_of_lt (lt_of_le_maxAlloc hk')]
      exact .text hnum hagg hfits (by omega)
  · -- a negative length, or a sum that has become negative
    have hless : (Int64.ofNat k + size).toInt < k := by
      have hhigh := Int64.toInt_lt size
      unfold TextFits at hfits
      rw [hsum]
      split <;> omega
    rw [if_neg (fun h => absurd (hbehind.mp h) (by omega)), if_pos (hback.mpr hless)]
    exact .outside hnum hagg hfits

end Content

/-! ## Enough fuel -/

section Fuel

variable {buf : Bytes}

theorem unmarshalView_succ (fuel : Nat) (m : RedisMessage) (hk : k ≤ buf.length)
    (hbuf : buf.length ≤ maxAlloc) : unmarshalView (fuel + 1) m (Int64.ofNat k) buf =
      match headerAt buf k with
      | none => .error .cacheUnmarshal
      | some (typ, size) =>
        unmarshalContent (fun n => unmarshalValues fuel n (Int64.ofNat (k + 9)) buf)
          { m with typ := typ } size (Int64.ofNat (k + 9)) buf := by
  have halloc : maxAlloc = 2 ^ 48 := rfl
  have hone : Int64.ofNat k + 1 = Int64.ofNat (k + 1) := (Int64.ofNat_add k 1).symm
  have hnine : Int64.ofNat k + 9 = Int64.ofNat (k + 9) := (Int64.ofNat_add k 9).symm
  have height : Int64.ofNat (k + 1) + 8 = Int64.ofNat (k + 9) := (Int64.ofNat_add (k + 1) 8).symm
  have hend : Int64.ofNat buf.length < Int64.ofNat (k + 9) ↔ buf.length < k + 9 :=
    ofNat_lt_ofNat_iff (by omega) (by omega)
  rw [unmarshalView, hone, hnine, height, Int64.toNatClampNeg_ofNat_of_lt (by omega), headerAt]
  by_cases hlen : k + 9 ≤ buf.length
  · rw [if_neg (fun h => absurd (hend.mp h) (by omega)), if_pos hlen]
  · rw [if_pos (hend.mpr (by omega)), if_neg hlen]

theorem unmarshalValues_succ (fuel n : Nat) (c : Int64) :
    unmarshalValues (fuel + 1) (n + 1) c buf =
      (unmarshalView fuel {} c buf).bind fun first =>
        (unmarshalValues fuel n first.2 buf).map fun out => (first.1 :: out.1, out.2) := by
  rw [unmarshalValues]
  rcases unmarshalView fuel {} c buf with e | ⟨v, c⟩
  · rfl
  · dsimp only [Except.bind]
    cases unmarshalValues fuel n c buf <;> rfl

/-- The content ends as it is said to: not for want of fuel, and a result ends in the buffer. -/
structure EndsIn {α : Type} (buf : Bytes) (least : Nat) (out : Except UnmarshalErr (α × Int64)) :
    Prop where
  fueled : out ≠ .error .outOfFuel
  stop : ∀ a c, out = .ok (a, c) → ∃ k, c = Int64.ofNat k ∧ least ≤ k ∧ k ≤ buf.length

section EndsIn

variable {α β : Type} {least : Nat} {out : Except UnmarshalErr (α × Int64)}

theorem ends_ok {k : Nat} (hleast : least ≤ k) (hk : k ≤ buf.length) (a : α) :
    EndsIn buf least (.ok (a, Int64.ofNat k)) :=
  ⟨nofun, fun a c h => by cases h; exact ⟨k, rfl, hleast, hk⟩⟩

theorem EndsIn.of_le (h : EndsIn buf least out) {k : Nat} (hk : k ≤ least) : EndsIn buf k out :=
  ⟨h.fueled, fun a c hc => (h.stop a c hc).imp fun _ ⟨hc, hl, hlen⟩ => ⟨hc, Nat.le_trans hk hl, hlen⟩⟩

theorem EndsIn.map (h : EndsIn buf least out) (f : α → β) :
    EndsIn buf least (out.map fun a => (f a.1, a.2)) := by
  rcases out with e | ⟨a, c⟩
  · exact ⟨fun he => h.fueled (by cases he; rfl), nofun⟩
  · refine ⟨nofun, fun b c' hb => ?_⟩
    cases hb
    exact h.stop a c rfl

end EndsIn

theorem Content.ends (h : Content values m size k buf out) (hk : k ≤ buf.length)
    (hvalues : EndsIn buf k (values size.toNatClampNeg)) : EndsIn buf k out := by
  cases h with
  | number => exact ends_ok (Nat.le_refl k) hk _
  | elements => exact hvalues.map _
  | unmade | outside | cut => exact ⟨nofun, nofun⟩
  | text _ _ _ hlen => exact ends_ok (by omega) hlen _

theorem unmarshal_ends (hbuf : buf.length ≤ maxAlloc) (fuel : Nat) :
    (∀ m k, k ≤ buf.length → buf.length < k + fuel →
      EndsIn buf (k + 9) (unmarshalView fuel m (Int64.ofNat k) buf)) ∧
    ∀ n k, k ≤ buf.length → buf.length + 1 < k + fuel →
      EndsIn buf k (unmarshalValues fuel n (Int64.ofNat k) buf) := by
  induction fuel with
  | zero => exact ⟨fun m k hk hfuel => by omega, fun n k hk hfuel => by omega⟩
  | succ fuel ih =>
    obtain ⟨hview, hvalues⟩ := ih
    constructor
    · intro m k hk hfuel
      rw [unmarshalView_succ fuel m hk hbuf, headerAt]
      by_cases hlen : k + 9 ≤ buf.length
      · rw [if_pos hlen]
        exact (content_of_unmarshal _ _ _ _ _ hlen hbuf).ends hlen
          (hvalues _ (k + 9) hlen (by omega))
      · rw [if_neg hlen]
        exact ⟨by simp, by simp⟩
    · intro n k hk hfuel
      cases n with
      | zero =>
        rw [unmarshalValues]
        exact ends_ok (Nat.le_refl k) hk _
      | succ n =>
        have hfirst := hview {} k hk (by omega)
        rw [unmarshalValues_succ]
        rcases hv : unmarshalView fuel {} (Int64.ofNat k) buf with e | ⟨v, c⟩
        · exact ⟨fun h => hfirst.fueled (by cases h; exact hv), fun _ _ h => by cases h⟩
        · obtain ⟨k', rfl, hk', hle⟩ := hfirst.stop v c hv
          exact ((hvalues n k' hle (by omega)).map (v :: ·)).of_le (by omega)

end Fuel

/-! ## The headers of a buffer -/

open StateTransition (Reaches)

/-- How many messages are still to come, and the offset of the first of them: from the header there
to the next one.  The elements of an array come behind its header. -/
def nextHeader (buf : Bytes) : Nat × Nat → Option (Nat × Nat)
  | (0, _) => none
  | (n + 1, k) =>
    match headerAt buf k with
    | none => none
    | some (typ, size) =>
      if numeric typ then some (n, k + 9)
      else if aggregate typ then
        if Makes maxMessages size then some (size.toNatClampNeg + n, k + 9) else none
      else if TextFits (k + 9) size ∧ k + 9 + size.toNatClampNeg ≤ buf.length then
        some (n, k + 9 + size.toNatClampNeg)
      else none

/-- If a message is to come and its header is there, its length can be used. -/
def FitsAt (buf : Bytes) : Nat × Nat → Prop
  | (0, _) => True
  | (_ + 1, k) => ∀ typ size, headerAt buf k = some (typ, size) → HeaderFits k typ size

def EndsAt (buf : Bytes) (start stop : Nat × Nat) : Prop :=
  Reaches (nextHeader buf) start stop ∧ nextHeader buf stop = none

/-- Where the headers lead while messages are unmarshalled of which all but `n` have come in the
end. -/
def Leads {α : Type} (buf : Bytes) (start : Nat × Nat) (n : Nat) :
    Except UnmarshalErr (α × Int64) → Prop
  | .ok (_, c) => ∃ k ≤ buf.length, c = Int64.ofNat k ∧ Reaches (nextHeader buf) start (n, k)
  | .error .cacheUnmarshal => ∃ stop, EndsAt buf start stop ∧ FitsAt buf stop
  | .error (.panic _) => ∃ stop, EndsAt buf start stop ∧ ¬ FitsAt buf stop
  | .error .outOfFuel => True

section Headers

variable {buf : Bytes} {k n : Nat} {start mid : Nat × Nat}

theorem le_of_headerAt {typ : UInt8} (h : headerAt buf k = some (typ, size)) :
    k + 9 ≤ buf.length := by
  by_contra hlen
  rw [headerAt, if_neg hlen] at h
  cases h

theorem nextHeader_eq_none (h : ¬ FitsAt buf start) : nextHeader buf start = none := by
  obtain ⟨n, k⟩ := start
  cases n with
  | zero => rfl
  | succ n =>
    cases hheader : headerAt buf k with
    | none => simp [nextHeader, hheader]
    | some header =>
      obtain ⟨typ, size⟩ := header
      have hown : ¬ HeaderFits k typ size := by
        intro hfits
        refine h fun typ' size' hheader' => ?_
        rw [hheader] at hheader'
        cases hheader'
        exact hfits
      by_cases hnum : numeric typ
      · refine absurd ⟨fun hagg => ?_, fun h => absurd hnum h⟩ hown
        exact absurd hnum (not_numeric_of_aggregate hagg)
      · by_cases hagg : aggregate typ
        · have hmakes : ¬ Makes maxMessages size := fun h => hown ⟨fun _ => h, fun _ h => absurd hagg h⟩
          simp [nextHeader, hheader, hnum, hagg, hmakes]
        · have htext : ¬ TextFits (k + 9) size := fun h => hown ⟨fun h => absurd h hagg, fun _ _ => h⟩
          simp [nextHeader, hheader, hnum, hagg, htext]

section Leads

variable {α β : Type} {out : Except UnmarshalErr (α × Int64)}

theorem Leads.head (hmid : Reaches (nextHeader buf) start mid) (h : Leads buf mid n out) :
    Leads buf start n out := by
  rcases out with e | ⟨a, c⟩
  · cases e with
    | cacheUnmarshal | panic =>
      obtain ⟨stop, ⟨hreaches, hnone⟩, hfits⟩ := h
      exact ⟨stop, ⟨hmid.trans hreaches, hnone⟩, hfits⟩
    | outOfFuel => trivial
  · obtain ⟨k, hk, hc, hreaches⟩ := h
    exact ⟨k, hk, hc, hmid.trans hreaches⟩

theorem Leads.map (h : Leads buf start n out) (f : α → β) :
    Leads buf start n (out.map fun a => (f a.1, a.2)) := by
  rcases out with e | ⟨a, c⟩
  · cases e <;> exact h
  · exact h

theorem Leads.bind {i : Nat} {f : α × Int64 → Except UnmarshalErr (β × Int64)}
    (h : Leads buf start n out)
    (hf : ∀ a k, k ≤ buf.length → Leads buf (n, k) i (f (a, Int64.ofNat k))) :
    Leads buf start i (out.bind f) := by
  rcases out with e | ⟨a, c⟩
  · cases e <;> exact h
  · obtain ⟨k, hk, rfl, hreaches⟩ := h
    exact (hf a k hk).head hreaches

end Leads

theorem Content.leads (h : Content values m size (k + 9) buf out)
    (hheader : headerAt buf k = some (m.typ, size))
    (hvalues : ∀ i, Leads buf (i + n, k + 9) n (values i)) : Leads buf (n + 1, k) n out := by
  have hlen := le_of_headerAt hheader
  have hself : Reaches (nextHeader buf) (n + 1, k) (n + 1, k) := .refl
  have hfits : FitsAt buf (n + 1, k) ↔ HeaderFits k m.typ size := by
    refine ⟨fun h => h _ _ hheader, fun h typ' size' hheader' => ?_⟩
    rw [hheader] at hheader'
    cases hheader'
    exact h
  have hpanics (hnot : ¬ HeaderFits k m.typ size) (p : Panic) :
      Leads buf (n + 1, k) n (.error (.panic p) : Except UnmarshalErr (RedisMessage × Int64)) :=
    have hnot := fun h => hnot (hfits.mp h)
    ⟨_, ⟨hself, nextHeader_eq_none hnot⟩, hnot⟩
  cases h with
  | number htyp =>
    refine ⟨k + 9, hlen, rfl, .single ?_⟩
    simp [nextHeader, hheader, htyp]
  | unmade htyp hmakes => exact hpanics (fun h => hmakes (h.1 htyp)) _
  | elements htyp hmakes =>
    refine ((hvalues _).map _).head (.single ?_)
    simp [nextHeader, hheader, htyp, hmakes, not_numeric_of_aggregate htyp]
  | outside hnum hagg hnot => exact hpanics (fun h => hnot (h.2 hnum hagg)) _
  | cut hnum hagg htext hcut =>
    refine ⟨_, ⟨hself, ?_⟩, hfits.mpr ⟨fun h => absurd h hagg, fun _ _ => htext⟩⟩
    simp [nextHeader, hheader, hnum, hagg, Nat.not_le.mpr hcut]
  | text hnum hagg htext hend =>
    refine ⟨_, hend, rfl, .single ?_⟩
    simp [nextHeader, hheader, hnum, hagg, htext, hend]

/-- Unmarshalling goes from header to header. -/
theorem unmarshal_leads (hbuf : buf.length ≤ maxAlloc) (fuel : Nat) :
    (∀ m n k, k ≤ buf.length →
      Leads buf (n + 1, k) n (unmarshalView fuel m (Int64.ofNat k) buf)) ∧
    ∀ i n k, k ≤ buf.length →
      Leads buf (i + n, k) n (unmarshalValues fuel i (Int64.ofNat k) buf) := by
  induction fuel with
  | zero =>
    refine ⟨fun m n k hk => by rw [unmarshalView]; trivial, fun i n k hk => ?_⟩
    cases i with
    | zero =>
      rw [unmarshalValues, Nat.zero_add]
      exact ⟨k, hk, rfl, .refl⟩
    | succ i =>
      rw [unmarshalValues]
      trivial
  | succ fuel ih =>
    obtain ⟨hview, hvalues⟩ := ih
    constructor
    · intro m n k hk
      rw [unmarshalView_succ fuel m hk hbuf]
      cases hheader : headerAt buf k with
      | none =>
        refine ⟨(n + 1, k), ⟨.refl, by simp [nextHeader, hheader]⟩, fun typ size h => ?_⟩
        rw [hheader] at h
        cases h
      | some header =>
        obtain ⟨typ, size⟩ := header
        have hlen := le_of_headerAt hheader
        exact (content_of_unmarshal _ { m with typ := typ } size (k + 9) buf hlen hbuf).leads hheader
          fun i => hvalues i n (k + 9) hlen
    · intro i n k hk
      cases i with
      | zero =>
        rw [unmarshalValues, Nat.zero_add]
        exact ⟨k, hk, rfl, .refl⟩
      | succ i =>
        rw [unmarshalValues_succ, Nat.succ_add_eq_add_succ]
        exact (hview {} (i + n) k hk).bind fun v k' hk' => (hvalues i n k' hk').map (v :: ·)

/-- There is only one way through the headers, and what does not fit ends it. -/
theorem fitsAt_iff_of_endsAt {stop : Nat × Nat} (h : EndsAt buf start stop) :
    (∀ here, Reaches (nextHeader buf) start here → FitsAt buf here) ↔ FitsAt buf stop := by
  refine ⟨fun hall => hall stop h.1, fun hstop here hreaches => ?_⟩
  by_contra hnot
  have hend := StateTransition.mem_eval.mpr ⟨hreaches, nextHeader_eq_none hnot⟩
  have hsame : here = stop := Part.mem_unique hend (StateTransition.mem_eval.mpr h)
  exact hnot (hsame ▸ hstop)

end Headers

/-- Unmarshalling a buffer succeeds or reports the error exactly if every header that the headers in
front of it lead to has a length that the code can use; else it panics.  The buffer has to be one
that can be allocated. -/
theorem cacheUnmarshalView_total_iff (m : RedisMessage) (buf : Bytes) (hbuf : buf.length ≤ maxAlloc) :
    ((∃ m', m.cacheUnmarshalView buf = .ok m') ∨
      m.cacheUnmarshalView buf = .error .cacheUnmarshal) ↔
    ∀ here, Reaches (nextHeader buf) (1, 7) here → FitsAt buf here := by
  unfold cacheUnmarshalView
  by_cases hlen : buf.length < 7
  · have hheader : headerAt buf 7 = none := if_neg (by omega)
    have hends : EndsAt buf (1, 7) (1, 7) := ⟨.refl, by simp [nextHeader, hheader]⟩
    rw [if_pos hlen, fitsAt_iff_of_endsAt hends]
    refine iff_of_true (.inr rfl) fun typ size h => ?_
    rw [hheader] at h
    cases h
  · have hseven : 7 ≤ buf.length := by omega
    rw [if_neg hlen]
    generalize { m with ttl := BitVec.ofNat 56 (ByteOrder.getLE (buf.take 7)) } = m'
    have hleads := (unmarshal_leads hbuf (buf.length + 1)).1 m' 0 7 hseven
    have hfueled := ((unmarshal_ends hbuf (buf.length + 1)).1 m' 7 hseven (by omega)).fueled
    rw [show Int64.ofNat 7 = 7 from rfl] at hleads hfueled
    dsimp only
    rcases hv : unmarshalView (buf.length + 1) m' 7 buf with e | ⟨v, c⟩ <;> rw [hv] at hleads
    · cases e with
      | cacheUnmarshal =>
        obtain ⟨stop, hends, hfits⟩ := hleads
        rw [fitsAt_iff_of_endsAt hends]
        exact iff_of_true (.inr rfl) hfits
      | panic p =>
        obtain ⟨stop, hends, hfits⟩ := hleads
        rw [fitsAt_iff_of_endsAt hends]
        refine iff_of_false ?_ hfits
        rintro (⟨m'', h⟩ | h) <;> cases h
      | outOfFuel => exact absurd hv hfueled
    · obtain ⟨k, -, -, hreaches⟩ := hleads
      have hends : EndsAt buf (1, 7) (0, k) := ⟨hreaches, rfl⟩
      rw [fitsAt_iff_of_endsAt hends]
      exact iff_of_true (.inl ⟨_, rfl⟩) trivial

theorem cacheUnmarshalView_total_iff_nested :
    let buf : Bytes := [0, 0, 0, 0, 0, 0, 0, typeArray, 0, 0, 0, 0, 0, 0, 0, 2,
      typeInteger, 0, 0, 0, 0, 0, 0, 0, 7, typeArray] ++ List.replicate 8 255
    ¬ ((∃ m', cacheUnmarshalView {} buf = .ok m') ∨
      cacheUnmarshalView {} buf = .error .cacheUnmarshal) ∧
    ¬ ∀ here, Reaches (nextHeader buf) (1, 7) here → FitsAt buf here := by
  intro buf
  have hout : cacheUnmarshalView {} buf = .error (.panic lenOutOfRange) := by decide
  have hnot : ¬ ((∃ m', cacheUnmarshalView {} buf = .ok m') ∨
      cacheUnmarshalView {} buf = .error .cacheUnmarshal) := by
    rw [hout]
    simp
  exact ⟨hnot, fun hall => hnot ((cacheUnmarshalView_total_iff {} buf (by decide)).mpr hall)⟩

/-- An array of minus one elements, a text of minus one bytes, a text that would end behind the
64-bit range, and an array that is larger than memory can be. -/
theorem cacheUnmarshalView_panics :
    cacheUnmarshalView {} ([0, 0, 0, 0, 0, 0, 0, typeArray] ++ List.replicate 8 255) =
      .error (.panic lenOutOfRange) ∧
    cacheUnmarshalView {} ([0, 0, 0, 0, 0, 0, 0, typeBlobString] ++ List.replicate 8 255) =
      .error (.panic sliceBoundsOutOfRange) ∧
    cacheUnmarshalView {}
        ([0, 0, 0, 0, 0, 0, 0, typeBlobString] ++ 127 :: List.replicate 7 255) =
      .error (.panic sliceBoundsOutOfRange) ∧
    cacheUnmarshalView {}
      ([0, 0, 0, 0, 0, 0, 0, typeArray] ++ 127 :: List.replicate 7 255) =
      .error (.panic lenOutOfRange) := by
  decide

end Rueidis
