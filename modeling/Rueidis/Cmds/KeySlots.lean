import Rueidis.Cmds.Slot

/-!
# Keys that are passed together

The fixed window limiter and the Bloom filters put what the user names between braces, so that the
keys of one script share a hash tag.  They do when the text between the braces does not begin with a
closing brace.  With an empty tag every key is hashed as a whole.
-/

namespace Rueidis

open Cmds List XorLinear Crc

def keyDelimOpen : Bytes := lit ":\x7b"
def keyDelimClose : Bytes := lit "\x7d"

def fixedWindowKey (keyPrefix identifier : Bytes) : Bytes :=
  keyPrefix ++ keyDelimOpen ++ identifier ++ keyDelimClose

def fixedWindowKeys (keyPrefix identifier : Bytes) : List Bytes :=
  [fixedWindowKey keyPrefix identifier, fixedWindowKey keyPrefix identifier ++ lit ":ex"]

namespace Prob

def bfName (name : Bytes) : Bytes := lit "\x7b" ++ name ++ lit "\x7d"

def bloomFilterKeys (name : Bytes) : List Bytes := [bfName name, bfName name ++ lit ":c"]

def cbfName (name : Bytes) : Bytes := bfName name ++ lit ":cbf"

def countingBloomFilterKeys (name : Bytes) : List Bytes := [cbfName name, cbfName name ++ lit ":c"]

def slidingBloomFilterKeys (name : Bytes) : List Bytes :=
  [bfName name, bfName name ++ lit ":n", bfName name ++ lit ":c", bfName name ++ lit ":nc",
    bfName name ++ lit ":lr"]

end Prob

namespace Cmds

def SameSlot (keys : List Bytes) : Prop := ∀ a ∈ keys, ∀ b ∈ keys, slot a = slot b

/-- A text between braces makes a hash tag: it has a first byte, and that is no closing brace. -/
def MakesTag (text : Bytes) : Prop := text ≠ [] ∧ text.head? ≠ some closeBrace

instance (text : Bytes) : Decidable (MakesTag text) :=
  inferInstanceAs (Decidable (text ≠ [] ∧ text.head? ≠ some closeBrace))

/-! ## Texts between braces -/

theorem exists_tag (text : Bytes) : ∃ tag, closeBrace ∉ tag ∧
    (∀ after, ∃ rest, text ++ closeBrace :: after = tag ++ closeBrace :: rest) ∧
    (tag ≠ [] ↔ MakesTag text) := by
  by_cases hclose : closeBrace ∈ text
  · obtain ⟨tag, rest, htext, htag⟩ := eq_append_cons_of_mem hclose
    refine ⟨tag, htag, fun after => ⟨rest ++ closeBrace :: after, ?_⟩, ?_⟩
    · rw [htext, append_assoc, cons_append]
    · rw [MakesTag, htext]
      cases tag with
      | nil => simp
      | cons b bs =>
        rw [mem_cons, not_or] at htag
        simpa using Ne.symm htag.1
  · refine ⟨text, hclose, fun after => ⟨after, rfl⟩, ?_⟩
    rw [MakesTag]
    exact ⟨fun hne => ⟨hne, fun hhead => hclose (mem_of_mem_head? hhead)⟩, fun h => h.1⟩

section Braced

variable {before : Bytes} (hbefore : openBrace ∉ before) (text : Bytes)
include hbefore

theorem slot_braced_eq (hmakes : MakesTag text) (after after' : Bytes) :
    slot (before ++ openBrace :: (text ++ closeBrace :: after)) =
      slot (before ++ openBrace :: (text ++ closeBrace :: after')) := by
  obtain ⟨tag, htag, hcut, hempty⟩ := exists_tag text
  have hslot (after : Bytes) :
      slot (before ++ openBrace :: (text ++ closeBrace :: after)) = crc16 tag &&& 16383 := by
    obtain ⟨rest, hrest⟩ := hcut after
    apply slot_of_isHashTag
    exact Or.inl ⟨⟨before, rest, hbefore, htag, by rw [hrest]⟩, hempty.mpr hmakes⟩
  rw [hslot, hslot]

theorem slot_braced_whole (hmakes : ¬ MakesTag text) (after : Bytes) :
    slot (before ++ openBrace :: (text ++ closeBrace :: after)) =
      crc16 (before ++ openBrace :: (text ++ closeBrace :: after)) &&& 16383 := by
  obtain ⟨tag, htag, hcut, hempty⟩ := exists_tag text
  obtain ⟨rest, hrest⟩ := hcut after
  have hnil : tag = [] := not_not.mp fun hne => hmakes (hempty.mp hne)
  rw [slot_of_tagged ⟨before, rest, hbefore, htag, by rw [hrest]⟩, if_pos hnil]

end Braced

/-! ## Whole keys with a suffix -/

/-- What `n` more zero bits change in the bits of a register that the slot keeps. -/
def drift (n : Nat) (c : BitVec 16) : BitVec 16 :=
  (remainder 0x1021#16 c (List.replicate n false) ^^^ c) &&& 0x3fff#16

theorem linear_drift (n : Nat) : XorLinear.Linear (drift n) :=
  (linear_and 0x3fff#16).comp
    ((linear_remainder 0x1021#16 n).xor linear_id)

theorem crc16_append (key suffix : Bytes) :
    (crc16 (key ++ suffix)).toBitVec =
      remainder 0x1021#16 (crc16 key).toBitVec (replicate (bits suffix).length false) ^^^
        xmodem suffix := by
  have happend : bits (key ++ suffix) = bits key ++ bits suffix := flatMap_append
  rw [crc16_eq_xmodem, xmodem, happend, remainder_append, ← xmodem, ← crc16_eq_xmodem,
    remainder_eq_xor, xmodem]

theorem masked_eq_iff (a b : UInt16) :
    a &&& 16383 = b &&& 16383 ↔ (a.toBitVec ^^^ b.toBitVec) &&& 0x3fff#16 = 0#16 := by
  have hlin := linear_and 0x3fff#16 a.toBitVec b.toBitVec
  dsimp only at hlin
  rw [← UInt16.toBitVec_inj, UInt16.toBitVec_and, UInt16.toBitVec_and, hlin, BitVec.xor_eq_zero_iff]
  exact Iff.rfl

theorem crc16_append_eq_iff (key suffix : Bytes) :
    crc16 (key ++ suffix) &&& 16383 = crc16 key &&& 16383 ↔
      drift (bits suffix).length (crc16 key).toBitVec = xmodem suffix &&& 0x3fff#16 := by
  have hlin := linear_and 0x3fff#16
    (remainder 0x1021#16 (crc16 key).toBitVec (replicate (bits suffix).length false) ^^^
      (crc16 key).toBitVec) (xmodem suffix)
  dsimp only at hlin
  rw [masked_eq_iff, crc16_append, BitVec.xor_assoc, BitVec.xor_comm (xmodem suffix),
    ← BitVec.xor_assoc, hlin, BitVec.xor_eq_zero_iff, drift]

/-- The check sums that a suffix leaves in place, as far as the slot goes: `drift` has to meet that
of the suffix, and is inverted by `rows` up to the two solutions `k` and `l` of its kernel. -/
theorem crc16_append_mem_iff (key suffix : Bytes) (rows : List (BitVec 16)) {n i j : Nat}
    {k l s : BitVec 16} (hlen : (bits suffix).length = n)
    (hinv : ∀ b < 16, combine rows (drift n (BitVec.twoPow 16 b)) =
      BitVec.twoPow 16 b ^^^ (taken k ((BitVec.twoPow 16 b).getLsbD i) ^^^
        taken l ((BitVec.twoPow 16 b).getLsbD j)))
    (hk : drift n k = 0#16) (hl : drift n l = 0#16) (hs : drift n s = xmodem suffix &&& 0x3fff#16) :
    crc16 (key ++ suffix) &&& 16383 = crc16 key &&& 16383 ↔
      (crc16 key).toBitVec ∈ [s, s ^^^ k, s ^^^ l, s ^^^ (k ^^^ l)] := by
  rw [crc16_append_eq_iff, hlen, ← hs]
  generalize (crc16 key).toBitVec = c
  have hlin := linear_drift n
  constructor
  · intro hc
    have hdiff : drift n (c ^^^ s) = 0#16 := by rw [hlin, hc, BitVec.xor_self]
    have hback := XorLinear.Linear.ext
      ((linear_combine rows).comp hlin)
      (linear_id.xor ((linear_taken k i).xor (linear_taken l j)))
      hinv (c ^^^ s)
    rw [hdiff, (linear_combine rows).zero] at hback
    have hc : c = s ^^^ (taken k ((c ^^^ s).getLsbD i) ^^^
        taken l ((c ^^^ s).getLsbD j)) := by
      rw [← BitVec.xor_eq_zero_iff, ← BitVec.xor_assoc, hback]
    rw [hc]
    cases (c ^^^ s).getLsbD i <;> cases (c ^^^ s).getLsbD j <;> simp [taken]
  · intro hc
    simp only [mem_cons, not_mem_nil, or_false] at hc
    rcases hc with rfl | rfl | rfl | rfl <;> simp only [hlin _ _, hk, hl, BitVec.xor_zero]

theorem crc16_ex_eq_iff (key : Bytes) :
    crc16 (key ++ lit ":ex") &&& 16383 = crc16 key &&& 16383 ↔
      crc16 key ∈ [0x4e78, 0x81a7, 0x71b8, 0xbe67] := by
  rw [crc16_append_mem_iff key (lit ":ex")
    [0x1f11, 0x01e2, 0x03c4, 0x47c8, 0x404f, 0x4f41, 0x515d, 0x52a5, 0x1515, 0x15ea, 0x1414, 0x17e8,
      0x1010, 0x1fe0]
    (n := 24) (i := 15) (j := 13) (k := 0xcfdf#16) (l := 0x3fc0#16) (s := 0x4e78#16)
    (by decide +kernel) (by decide +kernel) (by decide +kernel) (by decide +kernel) (by decide +kernel)]
  simp only [mem_cons, not_mem_nil, or_false, ← UInt16.toBitVec_inj]
  exact Iff.rfl

theorem crc16_c_eq_iff (key : Bytes) :
    crc16 (key ++ lit ":c") &&& 16383 = crc16 key &&& 16383 ↔
      crc16 key ∈ [0x01af, 0xa639, 0x5626, 0xf1b0] := by
  rw [crc16_append_mem_iff key (lit ":c")
    [0x0885, 0x110a, 0x2a90, 0x02a9, 0x0552, 0x0220, 0x0440, 0x0004, 0x0008, 0x0894, 0x1128, 0x2ad4,
      0x0221, 0x0442]
    (n := 16) (i := 15) (j := 14) (k := 0xa796#16) (l := 0x5789#16) (s := 0x01af#16)
    (by decide +kernel) (by decide +kernel) (by decide +kernel) (by decide +kernel) (by decide +kernel)]
  simp only [mem_cons, not_mem_nil, or_false, ← UInt16.toBitVec_inj]
  exact Iff.rfl

theorem crc16_n_ne_c (key : Bytes) :
    crc16 (key ++ lit ":n") &&& 16383 ≠ crc16 (key ++ lit ":c") &&& 16383 := by
  have hn : (bits (lit ":n")).length = 16 := by decide +kernel
  have hc : (bits (lit ":c")).length = 16 := by decide +kernel
  rw [Ne, masked_eq_iff, crc16_append, crc16_append, hn, hc]
  have hcancel (r a b : BitVec 16) : (r ^^^ a) ^^^ (r ^^^ b) = a ^^^ b := by
    rw [BitVec.xor_comm r a, BitVec.xor_assoc, ← BitVec.xor_assoc r, BitVec.xor_self,
      BitVec.zero_xor]
  rw [hcancel]
  decide +kernel

/-! ## The keys of the scripts -/

theorem sameSlot_pair (a b : Bytes) : SameSlot [a, b] ↔ slot b = slot a := by
  simp only [SameSlot, mem_cons, not_mem_nil, or_false]
  refine ⟨fun h => h b (Or.inr rfl) a (Or.inl rfl), ?_⟩
  rintro h x (rfl | rfl) y (rfl | rfl)
  exacts [rfl, h.symm, h, rfl]

theorem slot_suffix_iff {before : Bytes} (hbefore : openBrace ∉ before) (text after suffix : Bytes)
    {key : Bytes} (hkey : key = before ++ openBrace :: (text ++ closeBrace :: after)) :
    slot (key ++ suffix) = slot key ↔
      MakesTag text ∨ crc16 (key ++ suffix) &&& 16383 = crc16 key &&& 16383 := by
  have happend : key ++ suffix =
      before ++ openBrace :: (text ++ closeBrace :: (after ++ suffix)) := by
    rw [hkey]
    simp only [append_assoc, cons_append]
  by_cases hmakes : MakesTag text
  · have hsame : slot (key ++ suffix) = slot key := by
      rw [happend, hkey, slot_braced_eq hbefore text hmakes _ after]
    exact iff_of_true hsame (Or.inl hmakes)
  · rw [or_iff_right hmakes, happend, hkey, slot_braced_whole hbefore text hmakes,
      slot_braced_whole hbefore text hmakes]

theorem fixedWindowKey_eq (keyPrefix identifier : Bytes) :
    fixedWindowKey keyPrefix identifier =
      (keyPrefix ++ lit ":") ++ openBrace :: (identifier ++ closeBrace :: []) := by
  have hopen : keyDelimOpen = lit ":" ++ [openBrace] := by decide +kernel
  have hclose : keyDelimClose = [closeBrace] := by decide +kernel
  rw [fixedWindowKey, hopen, hclose]
  simp only [append_assoc, cons_append, nil_append]

theorem bfName_append (name after : Bytes) :
    Prob.bfName name ++ after = [] ++ openBrace :: (name ++ closeBrace :: after) := by
  have hopen : lit "\x7b" = [openBrace] := by decide +kernel
  have hclose : lit "\x7d" = [closeBrace] := by decide +kernel
  rw [Prob.bfName, hopen, hclose]
  simp only [append_assoc, cons_append, nil_append]

theorem sameSlot_fixedWindowKeys {keyPrefix : Bytes} (hfree : openBrace ∉ keyPrefix)
    (identifier : Bytes) :
    SameSlot (fixedWindowKeys keyPrefix identifier) ↔ MakesTag identifier ∨
      crc16 (fixedWindowKey keyPrefix identifier) ∈ [0x4e78, 0x81a7, 0x71b8, 0xbe67] := by
  have hbefore : openBrace ∉ keyPrefix ++ lit ":" :=
    not_mem_append hfree (by decide +kernel)
  rw [fixedWindowKeys, sameSlot_pair, slot_suffix_iff hbefore identifier [] _
    (fixedWindowKey_eq keyPrefix identifier), crc16_ex_eq_iff]

theorem sameSlot_counter (name after : Bytes) :
    SameSlot [Prob.bfName name ++ after, Prob.bfName name ++ after ++ lit ":c"] ↔ MakesTag name ∨
      crc16 (Prob.bfName name ++ after) ∈ [0x01af, 0xa639, 0x5626, 0xf1b0] := by
  rw [sameSlot_pair, slot_suffix_iff not_mem_nil name after _ (bfName_append name after),
    crc16_c_eq_iff]

theorem sameSlot_slidingBloomFilterKeys (name : Bytes) :
    SameSlot (Prob.slidingBloomFilterKeys name) ↔ MakesTag name := by
  constructor
  · intro h
    by_contra hmakes
    have hslot := h (Prob.bfName name ++ lit ":n") (by simp [Prob.slidingBloomFilterKeys])
      (Prob.bfName name ++ lit ":c") (by simp [Prob.slidingBloomFilterKeys])
    rw [bfName_append, bfName_append, slot_braced_whole not_mem_nil name hmakes,
      slot_braced_whole not_mem_nil name hmakes, ← bfName_append, ← bfName_append] at hslot
    exact crc16_n_ne_c _ hslot
  · intro hmakes a ha b hb
    -- all five keys have the braces in front
    have hform : ∀ key ∈ Prob.slidingBloomFilterKeys name, ∃ after,
        key = [] ++ openBrace :: (name ++ closeBrace :: after) := by
      intro key hkey
      simp only [Prob.slidingBloomFilterKeys, mem_cons, not_mem_nil, or_false] at hkey
      rcases hkey with h | h | h | h | h
      · exact ⟨[], by rw [h, ← bfName_append, append_nil]⟩
      all_goals exact ⟨_, by rw [h, bfName_append]⟩
    obtain ⟨after, ha⟩ := hform a ha
    obtain ⟨after', hb⟩ := hform b hb
    rw [ha, hb]
    exact slot_braced_eq not_mem_nil name hmakes after after'

/-- Where the keys that are passed together share a slot: for a text that makes a tag, and
otherwise only for the few check sums that the suffix leaves in place. -/
theorem sameSlot_iff (keyPrefix : Bytes) (hfree : openBrace ∉ keyPrefix)
    (identifier name : Bytes) :
    (SameSlot (fixedWindowKeys keyPrefix identifier) ↔ MakesTag identifier ∨
      crc16 (fixedWindowKey keyPrefix identifier) ∈ [0x4e78, 0x81a7, 0x71b8, 0xbe67]) ∧
    (SameSlot (Prob.bloomFilterKeys name) ↔ MakesTag name ∨
      crc16 (Prob.bfName name) ∈ [0x01af, 0xa639, 0x5626, 0xf1b0]) ∧
    (SameSlot (Prob.countingBloomFilterKeys name) ↔ MakesTag name ∨
      crc16 (Prob.cbfName name) ∈ [0x01af, 0xa639, 0x5626, 0xf1b0]) ∧
    (SameSlot (Prob.slidingBloomFilterKeys name) ↔ MakesTag name) := by
  have hbloom := sameSlot_counter name []
  rw [append_nil] at hbloom
  exact ⟨sameSlot_fixedWindowKeys hfree identifier, hbloom, sameSlot_counter name (lit ":cbf"),
    sameSlot_slidingBloomFilterKeys name⟩

theorem sameSlot_iff_user :
    SameSlot (fixedWindowKeys (lit "rueidislimiter") (lit "user")) ∧
      SameSlot (Prob.slidingBloomFilterKeys (lit "user")) := by
  have h := sameSlot_iff (lit "rueidislimiter") (by decide +kernel) (lit "user") (lit "user")
  exact ⟨h.1.mpr (Or.inl (by decide +kernel)), h.2.2.2.mpr (by decide +kernel)⟩

/-- The empty identifier, and a name that begins with a closing brace. -/
theorem crossSlot_of_empty_tag :
    (openBrace ∉ lit "rueidislimiter" ∧
      ¬ SameSlot (fixedWindowKeys (lit "rueidislimiter") [])) ∧
    (lit "\x7dusers" ≠ [] ∧ ¬ SameSlot (Prob.bloomFilterKeys (lit "\x7dusers")) ∧
      ¬ SameSlot (Prob.countingBloomFilterKeys (lit "\x7dusers")) ∧
      ¬ SameSlot (Prob.slidingBloomFilterKeys (lit "\x7dusers"))) := by
  unfold SameSlot
  decide +kernel

end Cmds

end Rueidis
