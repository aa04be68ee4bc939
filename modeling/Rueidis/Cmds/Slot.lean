import Rueidis.Library.Crc
import Rueidis.Message

/-!
# The slot of a key

`internal/cmds/slot.go`: the slot is the CRC16 of the key, or of the hash tag in it, modulo 16384. The
table is compared with taking a bit at a time, and the scans for the braces with the rule of the
cluster specification.
-/

namespace Rueidis.Cmds

variable {key bs tag t u : Bytes} {c : UInt8}

def openBrace : UInt8 := 123
def closeBrace : UInt8 := 125

set_option maxRecDepth 4096 in
def crc16tab : Vector UInt16 256 := #v[
  0x0000, 0x1021, 0x2042, 0x3063, 0x4084, 0x50a5, 0x60c6, 0x70e7,
  0x8108, 0x9129, 0xa14a, 0xb16b, 0xc18c, 0xd1ad, 0xe1ce, 0xf1ef,
  0x1231, 0x0210, 0x3273, 0x2252, 0x52b5, 0x4294, 0x72f7, 0x62d6,
  0x9339, 0x8318, 0xb37b, 0xa35a, 0xd3bd, 0xc39c, 0xf3ff, 0xe3de,
  0x2462, 0x3443, 0x0420, 0x1401, 0x64e6, 0x74c7, 0x44a4, 0x5485,
  0xa56a, 0xb54b, 0x8528, 0x9509, 0xe5ee, 0xf5cf, 0xc5ac, 0xd58d,
  0x3653, 0x2672, 0x1611, 0x0630, 0x76d7, 0x66f6, 0x5695, 0x46b4,
  0xb75b, 0xa77a, 0x9719, 0x8738, 0xf7df, 0xe7fe, 0xd79d, 0xc7bc,
  0x48c4, 0x58e5, 0x6886, 0x78a7, 0x0840, 0x1861, 0x2802, 0x3823,
  0xc9cc, 0xd9ed, 0xe98e, 0xf9af, 0x8948, 0x9969, 0xa90a, 0xb92b,
  0x5af5, 0x4ad4, 0x7ab7, 0x6a96, 0x1a71, 0x0a50, 0x3a33, 0x2a12,
  0xdbfd, 0xcbdc, 0xfbbf, 0xeb9e, 0x9b79, 0x8b58, 0xbb3b, 0xab1a,
  0x6ca6, 0x7c87, 0x4ce4, 0x5cc5, 0x2c22, 0x3c03, 0x0c60, 0x1c41,
  0xedae, 0xfd8f, 0xcdec, 0xddcd, 0xad2a, 0xbd0b, 0x8d68, 0x9d49,
  0x7e97, 0x6eb6, 0x5ed5, 0x4ef4, 0x3e13, 0x2e32, 0x1e51, 0x0e70,
  0xff9f, 0xefbe, 0xdfdd, 0xcffc, 0xbf1b, 0xaf3a, 0x9f59, 0x8f78,
  0x9188, 0x81a9, 0xb1ca, 0xa1eb, 0xd10c, 0xc12d, 0xf14e, 0xe16f,
  0x1080, 0x00a1, 0x30c2, 0x20e3, 0x5004, 0x4025, 0x7046, 0x6067,
  0x83b9, 0x9398, 0xa3fb, 0xb3da, 0xc33d, 0xd31c, 0xe37f, 0xf35e,
  0x02b1, 0x1290, 0x22f3, 0x32d2, 0x4235, 0x5214, 0x6277, 0x7256,
  0xb5ea, 0xa5cb, 0x95a8, 0x8589, 0xf56e, 0xe54f, 0xd52c, 0xc50d,
  0x34e2, 0x24c3, 0x14a0, 0x0481, 0x7466, 0x6447, 0x5424, 0x4405,
  0xa7db, 0xb7fa, 0x8799, 0x97b8, 0xe75f, 0xf77e, 0xc71d, 0xd73c,
  0x26d3, 0x36f2, 0x0691, 0x16b0, 0x6657, 0x7676, 0x4615, 0x5634,
  0xd94c, 0xc96d, 0xf90e, 0xe92f, 0x99c8, 0x89e9, 0xb98a, 0xa9ab,
  0x5844, 0x4865, 0x7806, 0x6827, 0x18c0, 0x08e1, 0x3882, 0x28a3,
  0xcb7d, 0xdb5c, 0xeb3f, 0xfb1e, 0x8bf9, 0x9bd8, 0xabbb, 0xbb9a,
  0x4a75, 0x5a54, 0x6a37, 0x7a16, 0x0af1, 0x1ad0, 0x2ab3, 0x3a92,
  0xfd2e, 0xed0f, 0xdd6c, 0xcd4d, 0xbdaa, 0xad8b, 0x9de8, 0x8dc9,
  0x7c26, 0x6c07, 0x5c64, 0x4c45, 0x3ca2, 0x2c83, 0x1ce0, 0x0cc1,
  0xef1f, 0xff3e, 0xcf5d, 0xdf7c, 0xaf9b, 0xbfba, 0x8fd9, 0x9ff8,
  0x6e17, 0x7e36, 0x4e55, 0x5e74, 0x2e93, 0x3eb2, 0x0ed1, 0x1ef0]

open List Crc

def crc16Step (crc : UInt16) (b : UInt8) : UInt16 :=
  (crc <<< 8) ^^^ crc16tab.get (((crc >>> 8).toUInt8 ^^^ b) &&& 0x00FF).toFin

def crc16 (key : Bytes) : UInt16 := key.foldl crc16Step 0

/-- The loop that leaves its index at the first `c`, or at the end: `s` is the index of the first of
the bytes left. -/
def scan (c : UInt8) : Bytes → Nat → Nat
  | [], s => s
  | b :: bs, s => if b = c then s else scan c bs (s + 1)

def slot (key : Bytes) : UInt16 :=
  let s := scan openBrace key 0
  if s = key.length then
    crc16 key &&& 16383
  else
    let e := scan closeBrace (key.drop (s + 1)) (s + 1)
    if e = key.length || e = s + 1 then
      crc16 key &&& 16383
    else
      crc16 ((key.drop (s + 1)).take (e - (s + 1))) &&& 16383

/-! ## The check sum -/

/-- The bits of a byte string in the order they are sent, the most significant one of a byte
first. -/
def bits (bs : Bytes) : List Bool := bs.flatMap fun b => leading 8 b.toBitVec

/-- CRC16/XMODEM, a bit at a time: polynomial `0x1021`, initial value 0, nothing reflected. -/
def xmodem (bs : Bytes) : BitVec 16 := remainder 0x1021#16 0#16 (bits bs)

theorem crc16tab_get (b : UInt8) :
    (crc16tab.get b.toFin).toBitVec =
      remainder 0x1021#16 0#16 (leading 8 b.toBitVec) := by
  have hall : ∀ i : Fin 256, (crc16tab.get i).toBitVec =
      remainder 0x1021#16 0#16 (leading 8 (UInt8.ofFin i).toBitVec) := by
    decide +kernel
  exact hall b.toFin

theorem leading_high (crc : UInt16) :
    leading 8 (crc >>> 8).toUInt8.toBitVec = leading 8 crc.toBitVec := by
  have hhigh : (crc >>> 8).toUInt8.toBitVec = (crc.toBitVec >>> 8).setWidth 8 := rfl
  rw [hhigh]
  apply map_congr_left
  intro i hi
  rw [mem_range] at hi
  have hpos : 8 + (8 - 1 - i) = 16 - 1 - i := by omega
  have hlt : 8 - 1 - i < 8 := by omega
  have hwide : i < 16 := by omega
  rw [BitVec.getMsbD, BitVec.getMsbD, BitVec.getLsbD_setWidth, BitVec.getLsbD_ushiftRight, hpos,
    decide_eq_true hi, decide_eq_true hlt, decide_eq_true hwide]
  rfl

theorem crc16Step_eq (crc : UInt16) (b : UInt8) :
    (crc16Step crc b).toBitVec =
      remainder 0x1021#16 crc.toBitVec (leading 8 b.toBitVec) := by
  have hmask (x : UInt8) : x &&& 0x00FF = x := UInt8.and_neg_one
  rw [remainder_of_leading _ _ (length_leading 8 _), ← leading_high, ← leading_xor,
    crc16Step, hmask, UInt16.toBitVec_xor, crc16tab_get, UInt8.toBitVec_xor]
  rfl

theorem crc16_eq_xmodem (key : Bytes) : (crc16 key).toBitVec = xmodem key := by
  -- the register may hold anything: the fold starts anywhere
  suffices h : ∀ crc : UInt16, (key.foldl crc16Step crc).toBitVec =
      remainder 0x1021#16 crc.toBitVec (bits key) from h 0
  induction key with
  | nil => intro crc; rfl
  | cons b bs ih =>
    intro crc
    have hbits : bits (b :: bs) = leading 8 b.toBitVec ++ bits bs := rfl
    rw [foldl_cons, ih, crc16Step_eq, hbits, remainder_append]

/-! ## The hash tag -/

/-- The rule of the cluster specification: `tag` is the text between the first `{` and the first `}`
after it. -/
def Tagged (key tag : Bytes) : Prop :=
  ∃ before after : Bytes, openBrace ∉ before ∧ closeBrace ∉ tag ∧
    key = before ++ openBrace :: (tag ++ closeBrace :: after)

/-- The part of a key that is hashed: the text between the braces when it exists and is not empty,
the whole key otherwise. -/
def IsHashTag (key tag : Bytes) : Prop :=
  Tagged key tag ∧ tag ≠ [] ∨ tag = key ∧ ∀ t, Tagged key t → t = []

theorem scan_of_not_mem (h : c ∉ bs) (s : Nat) : scan c bs s = s + bs.length := by
  induction bs generalizing s with
  | nil => rfl
  | cons b bs ih =>
    rw [mem_cons, not_or] at h
    rw [scan, if_neg (Ne.symm h.1), ih h.2, length_cons]
    omega

theorem scan_append (h : c ∉ bs) (rest : Bytes) (s : Nat) :
    scan c (bs ++ c :: rest) s = s + bs.length := by
  induction bs generalizing s with
  | nil => rw [nil_append, scan, if_pos rfl, length_nil, Nat.add_zero]
  | cons b bs ih =>
    rw [mem_cons, not_or] at h
    rw [cons_append, scan, if_neg (Ne.symm h.1), ih h.2, length_cons]
    omega

theorem slot_of_tagged (h : Tagged key tag) :
    slot key = (if tag = [] then crc16 key else crc16 tag) &&& 16383 := by
  obtain ⟨before, after, hbefore, htag, hkey⟩ := h
  have hs : scan openBrace key 0 = before.length := by
    rw [hkey, scan_append hbefore, Nat.zero_add]
  have hrest : key.drop (before.length + 1) = tag ++ closeBrace :: after := by
    rw [hkey, ← drop_drop, drop_left]
    rfl
  have he : scan closeBrace (key.drop (before.length + 1)) (before.length + 1) =
      before.length + 1 + tag.length := by
    rw [hrest, scan_append htag]
  have hlen : key.length = before.length + 1 + tag.length + 1 + after.length := by
    rw [hkey]
    simp only [length_append, length_cons]
    omega
  have hcut : (key.drop (before.length + 1)).take
      (before.length + 1 + tag.length - (before.length + 1)) = tag := by
    rw [hrest, Nat.add_sub_cancel_left, take_left]
  rw [slot, hs, if_neg (by omega), he]
  dsimp only
  rw [hcut]
  by_cases hempty : tag = []
  · rw [if_pos hempty, hempty, if_pos (by simp)]
  · have hpos : 0 < tag.length := length_pos_iff.mpr hempty
    rw [if_neg hempty, if_neg]
    simp only [Bool.or_eq_true, decide_eq_true_eq, not_or]
    omega

theorem slot_of_untagged (h : ∀ tag, ¬ Tagged key tag) : slot key = crc16 key &&& 16383 := by
  by_cases hopen : openBrace ∈ key
  · obtain ⟨before, rest, hkey, hbefore⟩ := eq_append_cons_of_mem hopen
    have hclose : closeBrace ∉ rest := by
      intro hmem
      obtain ⟨tag, after, hrest, htag⟩ := eq_append_cons_of_mem hmem
      exact h tag ⟨before, after, hbefore, htag, by rw [hkey, hrest]⟩
    have hs : scan openBrace key 0 = before.length := by
      rw [hkey, scan_append hbefore, Nat.zero_add]
    have hrest : key.drop (before.length + 1) = rest := by
      rw [hkey, ← drop_drop, drop_left]
      rfl
    have hlen : key.length = before.length + 1 + rest.length := by
      rw [hkey, length_append, length_cons]
      omega
    rw [slot, hs, if_neg (by omega), hrest, scan_of_not_mem hclose, ← hlen, if_pos (by simp)]
  · rw [slot, scan_of_not_mem hopen, Nat.zero_add, if_pos rfl]

theorem slot_of_isHashTag (h : IsHashTag key tag) : slot key = crc16 tag &&& 16383 := by
  cases h with
  | inl h => rw [slot_of_tagged h.1, if_neg h.2]
  | inr h =>
    rw [h.1]
    by_cases htagged : ∃ t, Tagged key t
    · obtain ⟨t, ht⟩ := htagged
      rw [slot_of_tagged ht, if_pos (h.2 t ht)]
    · exact slot_of_untagged fun t ht => htagged ⟨t, ht⟩

/-- A byte string is cut at the first `c` in one way only: that is where the scan stops. -/
theorem cut_unique {a b x y : Bytes} (ha : c ∉ a) (hb : c ∉ b) (h : a ++ c :: x = b ++ c :: y) :
    a = b ∧ x = y := by
  have hlen : a.length = b.length := by
    have hscan := congrArg (fun bs => scan c bs 0) h
    rwa [scan_append ha, scan_append hb, Nat.zero_add, Nat.zero_add] at hscan
  have hparts := append_inj h hlen
  exact ⟨hparts.1, (cons.inj hparts.2).2⟩

theorem Tagged.unique (ht : Tagged key t) (hu : Tagged key u) : t = u := by
  obtain ⟨before, after, hbefore, htag, hkey⟩ := ht
  obtain ⟨before', after', hbefore', htag', hkey'⟩ := hu
  have hrest := (cut_unique hbefore hbefore' (hkey.symm.trans hkey')).2
  exact (cut_unique htag htag' hrest).1

theorem exists_isHashTag (key : Bytes) : ∃ tag, IsHashTag key tag := by
  by_cases h : ∃ t, Tagged key t ∧ t ≠ []
  · obtain ⟨t, ht⟩ := h
    exact ⟨t, Or.inl ht⟩
  · refine ⟨key, Or.inr ⟨rfl, fun t ht => ?_⟩⟩
    by_contra hne
    exact h ⟨t, ht, hne⟩

theorem IsHashTag.unique (ht : IsHashTag key t) (hu : IsHashTag key u) : t = u := by
  rcases ht with ⟨ht, hne⟩ | ⟨rfl, ht⟩ <;> rcases hu with ⟨hu, hne'⟩ | ⟨rfl, hu⟩
  · exact ht.unique hu
  · exact absurd (hu t ht) hne
  · exact absurd (ht u hu) hne'
  · rfl

/-- Every key has exactly one hash tag, and its slot is the bitwise check sum of that tag modulo
16384. -/
theorem slot_eq_specification (key : Bytes) :
    ∃ tag, IsHashTag key tag ∧ (∀ t, IsHashTag key t → t = tag) ∧
      (slot key).toNat = (xmodem tag).toNat % 16384 := by
  obtain ⟨tag, htag⟩ := exists_isHashTag key
  refine ⟨tag, htag, fun t ht => ht.unique htag, ?_⟩
  have hmask : (slot key).toNat = (crc16 tag).toNat % 16384 := by
    rw [slot_of_isHashTag htag, UInt16.toNat_and]
    exact Nat.and_two_pow_sub_one_eq_mod _ 14
  rw [hmask, ← crc16_eq_xmodem]
  rfl

end Rueidis.Cmds
