import Rueidis.Cache.Marshal
import Mathlib.Data.List.Forall2

/-!
# Reading back what was marshalled

One statement covers a whole buffer and all that is left of it when it is cut: a message in a buffer
is read if the buffer reaches to its end, and is an error if not.
-/

namespace Rueidis

open ByteOrder List Int64 RedisMessage

/-! ## The messages of the format -/

variable {m m' : RedisMessage} {α : Type} {buf : Bytes} {vs : List RedisMessage} {stop : Nat}

abbrev numeric (typ : UInt8) : Prop := typ = typeInteger ∨ typ = typeNull ∨ typ = typeBool
abbrev aggregate (typ : UInt8) : Prop := typ = typeArray ∨ typ = typeMap ∨ typ = typeSet

/-- Numbers, nulls and booleans have no text, all other leaves have one, and what has elements is an
array, a map or a set.  A length is the length of what it belongs to, and elements are as many as a
slice can have. -/
inductive CacheForm : RedisMessage → Prop
  | number {m : RedisMessage} (htyp : numeric m.typ) (hbytes : m.bytes = none)
      (harray : m.array = none) : CacheForm m
  | elements {m : RedisMessage} (htyp : aggregate m.typ) (hbytes : m.bytes = none)
      (hlen : m.intlen = Int64.ofNat m.values.length) (hmakes : m.values.length ≤ maxMessages)
      (hvalues : ∀ v ∈ m.values, CacheForm v) : CacheForm m
  | text {m : RedisMessage} (hnum : ¬ numeric m.typ) (hagg : ¬ aggregate m.typ)
      (harray : m.array = none) (hlen : m.intlen = Int64.ofNat m.string.length) : CacheForm m

/-- The same type, number, text and elements, at every depth. -/
inductive SameContent : RedisMessage → RedisMessage → Prop
  | intro {a b : RedisMessage} (typ : a.typ = b.typ) (intlen : a.intlen = b.intlen)
      (string : a.string = b.string) (values : List.Forall₂ SameContent a.values b.values) :
      SameContent a b

theorem not_numeric_of_aggregate {typ : UInt8} (h : aggregate typ) : ¬ numeric typ := by
  rcases h with rfl | rfl | rfl <;> decide

/-! ## What is written -/

theorem cachesizeArray_eq (array : Option (List RedisMessage)) :
    cachesizeArray array = cachesizeValues (array.getD []) := by
  cases array <;> rfl

theorem serializeArray_eq (array : Option (List RedisMessage)) :
    serializeArray array = serializeValues (array.getD []) := by
  cases array <;> rfl

section Cases

variable {m : RedisMessage}

theorem cachesize_eq (m : RedisMessage) : m.cachesize =
    9 + if numeric m.typ then 0 else if aggregate m.typ then cachesizeValues m.values
      else m.string.length := by
  cases m
  rw [cachesize, cachesizeArray_eq]
  rfl

theorem cachesize_number (h : numeric m.typ) : m.cachesize = 9 := by
  rw [cachesize_eq, if_pos h]

theorem cachesize_elements (h : aggregate m.typ) : m.cachesize = 9 + cachesizeValues m.values := by
  rw [cachesize_eq, if_neg (not_numeric_of_aggregate h), if_pos h]

theorem cachesize_text (hnum : ¬ numeric m.typ) (hagg : ¬ aggregate m.typ) :
    m.cachesize = 9 + m.string.length := by
  rw [cachesize_eq, if_neg hnum, if_neg hagg]

theorem serialize_eq (m : RedisMessage) : m.serialize =
    m.typ :: if numeric m.typ then putUint64 m.intlen.toUInt64
      else if aggregate m.typ then
        putUint64 (UInt64.ofNat m.values.length) ++ serializeValues m.values
      else putUint64 (UInt64.ofNat m.string.length) ++ m.string := by
  cases m
  rw [serialize, serializeArray_eq]
  rfl

theorem serialize_number (h : numeric m.typ) :
    m.serialize = m.typ :: (putUint64 m.intlen.toUInt64 ++ []) := by
  rw [serialize_eq, if_pos h, append_nil]

theorem serialize_elements (h : aggregate m.typ) :
    m.serialize =
      m.typ :: (putUint64 (UInt64.ofNat m.values.length) ++ serializeValues m.values) := by
  rw [serialize_eq, if_neg (not_numeric_of_aggregate h), if_pos h]

theorem serialize_text (hnum : ¬ numeric m.typ) (hagg : ¬ aggregate m.typ) :
    m.serialize = m.typ :: (putUint64 (UInt64.ofNat m.string.length) ++ m.string) := by
  rw [serialize_eq, if_neg hnum, if_neg hagg]

end Cases

@[simp] theorem length_putUint64 (x : UInt64) : (putUint64 x).length = 8 := length_putBE 8 _

theorem length_serializeValues (h : ∀ v ∈ vs, v.serialize.length = v.cachesize) :
    (serializeValues vs).length = cachesizeValues vs := by
  induction vs with
  | nil => rfl
  | cons v vs ih =>
    rw [forall_mem_cons] at h
    rw [serializeValues, cachesizeValues, length_append, h.1, ih h.2]

theorem length_serialize (h : CacheForm m) : m.serialize.length = m.cachesize := by
  induction h with
  | number htyp _ _ =>
    rw [serialize_number htyp, cachesize_number htyp]
    simp
  | elements htyp _ _ _ _ ih =>
    rw [serialize_elements htyp, cachesize_elements htyp, length_cons, length_append,
      length_putUint64, length_serializeValues ih]
    omega
  | text hnum hagg _ _ =>
    rw [serialize_text hnum hagg, cachesize_text hnum hagg, length_cons, length_append,
      length_putUint64]
    omega

/-! ## What is read -/

theorem prefix_append_cases {buf a b : List α} (h : buf <+: a ++ b) :
    buf.length < a.length ∨ ∃ r, buf = a ++ r ∧ r <+: b := by
  by_cases hlen : buf.length < a.length
  · exact .inl hlen
  · right
    obtain ⟨r, rfl⟩ := prefix_of_prefix_length_le (prefix_append a b) h
      (Nat.le_of_not_lt hlen)
    exact ⟨r, rfl, (prefix_append_right_inj a).mp h⟩

theorem ofNat_lt_ofNat_iff {a b : Nat} (ha : a < 2 ^ 63) (hb : b < 2 ^ 63) :
    ofNat a < ofNat b ↔ a < b := by
  rw [lt_iff_toInt_lt, toInt_ofNat_of_lt ha, toInt_ofNat_of_lt hb]
  exact Int.ofNat_lt

theorem int64At_putUint64 (pre r : Bytes) (x : UInt64) (hpre : pre.length < 2 ^ 63) :
    int64At (ofNat pre.length) (pre ++ (putUint64 x ++ r)) = x.toInt64 := by
  have hget : getBE (putUint64 x) = x.toNat := getBE_putBE (UInt64.toNat_lt x)
  unfold int64At
  rw [toNatClampNeg_ofNat_of_lt hpre, drop_left,
    take_left' (length_putUint64 x), hget, UInt64.ofNat_toNat]

section View

variable {fuel : Nat} {m : RedisMessage} {pre r : Bytes} {typ : UInt8} {x : UInt64}

theorem unmarshalView_short (hpre : pre.length + 9 < 2 ^ 63) (h : buf.length < pre.length + 9) :
    unmarshalView (fuel + 1) m (ofNat pre.length) buf = .error .cacheUnmarshal := by
  rw [unmarshalView, if_pos]
  rw [show (9 : Int64) = ofNat 9 from rfl, ← ofNat_add,
    ofNat_lt_ofNat_iff (by omega) hpre]
  exact h

theorem unmarshalView_header (hlen : (pre ++ typ :: (putUint64 x ++ r)).length < 2 ^ 63) :
    unmarshalView (fuel + 1) m (ofNat pre.length) (pre ++ typ :: (putUint64 x ++ r)) =
      unmarshalContent
        (fun n => unmarshalValues fuel n (ofNat (pre.length + 9))
          (pre ++ typ :: (putUint64 x ++ r)))
        { m with typ := typ } x.toInt64 (ofNat (pre.length + 9))
        (pre ++ typ :: (putUint64 x ++ r)) := by
  have hsplit : (pre ++ typ :: (putUint64 x ++ r)).length = pre.length + 9 + r.length := by
    simp only [length_append, length_cons, length_putUint64]
    omega
  have hone : ofNat pre.length + 1 = ofNat (pre ++ [typ]).length := by
    rw [length_append, ofNat_add]
    rfl
  have hnine : ofNat pre.length + 1 + 8 = ofNat (pre.length + 9) := by
    rw [Int64.ofNat_add, Int64.add_assoc]
    rfl
  have hat : int64At (ofNat pre.length + 1) (pre ++ typ :: (putUint64 x ++ r)) =
      x.toInt64 := by
    rw [append_cons, hone]
    apply int64At_putUint64
    rw [length_append, length_singleton]
    omega
  have htyp : (pre ++ typ :: (putUint64 x ++ r)).getD (ofNat pre.length).toNatClampNeg 0 =
      typ := by
    rw [toNatClampNeg_ofNat_of_lt (by omega), getD_eq_getElem?_getD,
      getElem?_append_right (Nat.le_refl _), Nat.sub_self]
    rfl
  rw [unmarshalView, if_neg, hat, htyp, hnine]
  rw [show (9 : Int64) = ofNat 9 from rfl, ← ofNat_add,
    ofNat_lt_ofNat_iff hlen (by omega)]
  omega

def upTo {α : Type} (buf : Bytes) (stop : Nat) (a : α) : Except UnmarshalErr (α × Int64) :=
  if stop ≤ buf.length then .ok (a, Int64.ofNat stop) else .error .cacheUnmarshal

end View

/-- Wherever `m` is in a buffer, what is read there is `m'`, or an error if the buffer ends before
`m` does. -/
def ReadsBack (ttl : BitVec 56) (m m' : RedisMessage) : Prop :=
  ∀ (pre post buf : Bytes) (fuel : Nat), (pre ++ (m.serialize ++ post)).length < 2 ^ 63 →
    buf <+: pre ++ (m.serialize ++ post) → buf.length - pre.length < fuel →
    unmarshalView fuel { ttl := ttl } (Int64.ofNat pre.length) buf =
      upTo buf (pre.length + m.cachesize) m'

theorem upTo_error {a : α} (h : buf.length < stop) :
    upTo buf stop a = .error .cacheUnmarshal := if_neg (Nat.not_le_of_lt h)

theorem upTo_ok {a : α} (h : stop ≤ buf.length) : upTo buf stop a = .ok (a, ofNat stop) := if_pos h

theorem unmarshalValues_serializeValues {vs' : List RedisMessage} (hform : ∀ v ∈ vs, CacheForm v)
    (hreads : Forall₂ (ReadsBack 0) vs vs') :
    ∀ (pre post buf : Bytes) (fuel : Nat),
      (pre ++ (serializeValues vs ++ post)).length < 2 ^ 63 →
      buf <+: pre ++ (serializeValues vs ++ post) → pre.length ≤ buf.length →
      buf.length - pre.length + 1 < fuel →
      unmarshalValues fuel vs.length (ofNat pre.length) buf =
        upTo buf (pre.length + cachesizeValues vs) vs' := by
  induction hreads with
  | nil =>
    intro pre post buf fuel _ _ hle _
    rw [length_nil, unmarshalValues, cachesizeValues, Nat.add_zero, upTo_ok hle]
  | @cons v v' vs vs' hv _ ih =>
    intro pre post buf fuel hlen hbuf hle hfuel
    rw [forall_mem_cons] at hform
    have hsize : v.serialize.length = v.cachesize := length_serialize hform.1
    have hnine : 9 ≤ v.cachesize := by
      rw [cachesize_eq]
      exact Nat.le_add_right 9 _
    rw [serializeValues, append_assoc] at hlen hbuf
    rw [cachesizeValues, length_cons]
    cases fuel with
    | zero => omega
    | succ fuel =>
      rw [unmarshalValues, show ({} : RedisMessage) = { ttl := 0 } from rfl,
        hv pre _ buf fuel hlen hbuf (by omega)]
      by_cases hfits : pre.length + v.cachesize ≤ buf.length
      · -- the rest of the elements is behind a longer front part
        have hfront : pre.length + v.cachesize = (pre ++ v.serialize).length := by
          rw [length_append, hsize]
        rw [← append_assoc] at hlen hbuf
        rw [upTo_ok hfits]
        dsimp only
        rw [hfront] at hfits ⊢
        rw [ih hform.2 (pre ++ v.serialize) post buf fuel hlen hbuf hfits (by omega),
          ← hfront, Nat.add_assoc]
        by_cases hall : pre.length + (v.cachesize + cachesizeValues vs) ≤ buf.length
        · rw [upTo_ok hall, upTo_ok hall]
        · rw [upTo_error (Nat.lt_of_not_le hall), upTo_error (Nat.lt_of_not_le hall)]
      · rw [upTo_error (Nat.lt_of_not_le hfits), upTo_error (by omega)]

theorem append_header (pre : Bytes) (typ : UInt8) (x : UInt64) (r : Bytes) :
    pre ++ typ :: (putUint64 x ++ r) = (pre ++ typ :: putUint64 x) ++ r := by
  rw [append_assoc, cons_append]

theorem length_header (pre : Bytes) (typ : UInt8) (x : UInt64) :
    (pre ++ typ :: putUint64 x).length = pre.length + 9 := by
  simp

theorem reads_of_content {ttl : BitVec 56} {x : UInt64} {body : Bytes}
    (hserialize : m.serialize = m.typ :: (putUint64 x ++ body))
    (hsize : m.cachesize = 9 + body.length) (hcontent : ∀ (pre post r : Bytes) (fuel : Nat),
      (pre ++ m.typ :: (putUint64 x ++ (body ++ post))).length < 2 ^ 63 → r <+: body ++ post →
      r.length + 8 < fuel →
      unmarshalContent
        (fun n => unmarshalValues fuel n (ofNat (pre.length + 9))
          (pre ++ m.typ :: (putUint64 x ++ r)))
        { ttl := ttl, typ := m.typ } x.toInt64 (ofNat (pre.length + 9))
        (pre ++ m.typ :: (putUint64 x ++ r)) =
      upTo (pre ++ m.typ :: (putUint64 x ++ r)) (pre.length + 9 + body.length) m') :
    ReadsBack ttl m m' := by
  intro pre post buf fuel hlen hbuf hfuel
  rw [hserialize, cons_append, append_assoc] at hlen hbuf
  rw [hsize, ← Nat.add_assoc]
  have hhead : (pre ++ m.typ :: putUint64 x).length = pre.length + 9 := by simp
  have htotal : pre.length + 9 < 2 ^ 63 := by
    simp only [length_append, length_cons, length_putUint64] at hlen
    omega
  cases fuel with
  | zero => omega
  | succ fuel =>
    rw [← cons_append, ← append_assoc] at hbuf
    rcases prefix_append_cases hbuf with hshort | ⟨r, rfl, hr⟩
    · rw [hhead] at hshort
      rw [unmarshalView_short htotal hshort, upTo_error (by omega)]
    · have hbuflen : (pre ++ m.typ :: putUint64 x ++ r).length = pre.length + 9 + r.length := by
        rw [length_append, hhead]
      rw [append_assoc, cons_append] at hbuflen hfuel ⊢
      have hrle : r.length ≤ (body ++ post).length := hr.length_le
      rw [unmarshalView_header]
      · exact hcontent pre post r fuel hlen hr (by omega)
      · simp only [length_append, length_cons, length_putUint64] at hlen hrle ⊢
        omega

theorem reads_of_cacheForm (h : CacheForm m) :
    ∀ ttl, ∃ m', SameContent m m' ∧ m'.ttl = ttl ∧ ReadsBack ttl m m' := by
  induction h with
  | @number m htyp hbytes harray =>
    intro ttl
    refine ⟨{ typ := m.typ, intlen := m.intlen, ttl := ttl }, ?_, rfl, ?_⟩
    · refine ⟨rfl, rfl, ?_, ?_⟩
      · rw [string, hbytes]
        rfl
      · rw [values, harray]
        exact .nil
    · apply reads_of_content (serialize_number htyp) (cachesize_number htyp)
      intro pre post r fuel _ _ _
      rw [unmarshalContent, if_pos htyp, toInt64_toUInt64, upTo_ok]
      · rfl
      · simp
  | @elements m htyp hbytes hlen hmakes hvalues ih =>
    intro ttl
    -- the elements, each read on its own
    have helems : ∀ vs : List RedisMessage, (∀ v ∈ vs, v ∈ m.values) →
        ∃ vs', Forall₂ SameContent vs vs' ∧ Forall₂ (ReadsBack 0) vs vs' := by
      intro vs
      induction vs with
      | nil => exact fun _ => ⟨[], .nil, .nil⟩
      | cons v vs ihvs =>
        intro hmem
        rw [forall_mem_cons] at hmem
        obtain ⟨v', hsame, -, hreads⟩ := ih v hmem.1 0
        obtain ⟨vs', hsames, hreadss⟩ := ihvs hmem.2
        exact ⟨v' :: vs', .cons hsame hsames, .cons hreads hreadss⟩
    obtain ⟨vs', hsame, hreads⟩ := helems m.values fun _ h => h
    have hcount : vs'.length = m.values.length := hsame.length_eq.symm
    have hbody : (serializeValues m.values).length = cachesizeValues m.values :=
      length_serializeValues fun v hv => length_serialize (hvalues v hv)
    refine ⟨({ typ := m.typ, ttl := ttl } : RedisMessage).setValues vs', ?_, rfl, ?_⟩
    · refine ⟨rfl, ?_, ?_, hsame⟩
      · rw [hlen, ← hcount]
        rfl
      · rw [string, hbytes]
        rfl
    · apply reads_of_content (serialize_elements htyp)
      · rw [cachesize_elements htyp, hbody]
      · intro pre post r fuel htotal hr hfuel
        rw [append_header] at htotal
        have halloc := le_maxAlloc_of_le_maxMessages hmakes
        have hcountlt := lt_of_le_maxAlloc halloc
        rw [unmarshalContent, if_neg (not_numeric_of_aggregate htyp), if_pos htyp,
          UInt64.toInt64_ofNat', if_neg (not_not_intro (makes_ofNat hmakes halloc)),
          toNatClampNeg_ofNat_of_lt hcountlt, append_header, ← length_header,
          unmarshalValues_serializeValues hvalues hreads _ post _ fuel htotal
            ((prefix_append_right_inj _).mpr hr) (by simp) (by simp; omega), hbody]
        generalize pre ++ m.typ :: putUint64 (UInt64.ofNat m.values.length) = front
        by_cases hfits : front.length + cachesizeValues m.values ≤ (front ++ r).length
        · rw [upTo_ok hfits, upTo_ok hfits]
        · rw [upTo_error (Nat.lt_of_not_le hfits), upTo_error (Nat.lt_of_not_le hfits)]
  | @text m hnum hagg harray hlen =>
    intro ttl
    refine ⟨({ typ := m.typ, ttl := ttl } : RedisMessage).setString m.string, ?_, rfl, ?_⟩
    · refine ⟨rfl, hlen, rfl, ?_⟩
      rw [values, harray]
      exact .nil
    · apply reads_of_content (serialize_text hnum hagg) (cachesize_text hnum hagg)
      intro pre post r fuel htotal hr hfuel
      rw [append_header] at htotal ⊢
      rw [length_append, length_header, length_append] at htotal
      have hbuf : (pre ++ m.typ :: putUint64 (UInt64.ofNat m.string.length) ++ r).length =
          pre.length + 9 + r.length := by
        rw [length_append, length_header]
      have hrle : r.length ≤ (m.string ++ post).length := hr.length_le
      rw [length_append] at hrle
      rw [unmarshalContent, if_neg hnum, if_neg hagg, UInt64.toInt64_ofNat', ← ofNat_add]
      have hwrap : ¬ ofNat (pre.length + 9 + m.string.length) <
          ofNat (pre.length + 9) := by
        rw [ofNat_lt_ofNat_iff (by omega) (by omega)]
        omega
      have hend := ofNat_lt_ofNat_iff (a := pre.length + 9 + r.length)
        (b := pre.length + 9 + m.string.length) (by omega) (by omega)
      rw [← hbuf] at hend
      rcases prefix_append_cases hr with hshort | ⟨r', rfl, -⟩
      · rw [if_pos (hend.mpr (by omega)), upTo_error (by omega)]
      · have hr' : (m.string ++ r').length = m.string.length + r'.length := length_append
        rw [if_neg (fun h => absurd (hend.mp h) (by omega)), if_neg hwrap, upTo_ok (by omega),
          toNatClampNeg_ofNat_of_lt (by omega), toNatClampNeg_ofNat_of_lt (by omega),
          ← length_header, drop_left, take_left]

/-! ## Whole buffers -/

theorem ttlBytes_length (m : RedisMessage) : m.ttlBytes.length = 7 := length_putLE 7 _

theorem ttl_of_ttlBytes (m : RedisMessage) : BitVec.ofNat 56 (getLE m.ttlBytes) = m.ttl := by
  have hlt : m.ttl.toNat < 256 ^ 7 := m.ttl.isLt
  rw [ttlBytes, getLE_putLE hlt, BitVec.ofNat_toNat, BitVec.setWidth_eq]

theorem SameContent.withAttrs {a b : RedisMessage} (h : SameContent a b)
    (attrs : Option RedisMessage) : SameContent a { b with attrs := attrs } := by
  cases h with
  | intro typ intlen string values => exact ⟨typ, intlen, string, values⟩

theorem cacheUnmarshalView_upTo (hreads : ReadsBack m.ttl m m')
    (hfits : m.ttlBytes.length + m.serialize.length < 2 ^ 63) {r : Bytes} (hr : r <+: m.serialize) :
    cacheUnmarshalView {} (m.ttlBytes ++ r) =
      (upTo (m.ttlBytes ++ r) (7 + m.cachesize) m').map fun out =>
        { out.1 with attrs := some cacheMark } := by
  have hlen : (m.ttlBytes ++ r).length = 7 + r.length := by
    rw [length_append, ttlBytes_length]
  have hread := hreads m.ttlBytes [] (m.ttlBytes ++ r) ((m.ttlBytes ++ r).length + 1)
  rw [append_nil, length_append, ttlBytes_length] at hread
  rw [ttlBytes_length] at hfits
  rw [cacheUnmarshalView, if_neg (by omega), take_left' (ttlBytes_length m),
    ttl_of_ttlBytes]
  have hview := hread hfits ((prefix_append_right_inj _).mpr hr) (by omega)
  dsimp only
  rw [show (7 : Int64) = ofNat 7 from rfl, hview]
  cases upTo (m.ttlBytes ++ r) (7 + m.cachesize) m' <;> rfl

/-- What `CacheMarshal` writes has the announced size, is read back as it was, and is an error as
soon as anything is missing at its end.  The size has to be the size of a Go slice. -/
theorem cacheMarshal_roundTrip (hform : CacheForm m) (hfits : m.cacheSize < 2 ^ 63) :
    (m.cacheMarshal []).length = m.cacheSize ∧
    (∃ m', cacheUnmarshalView {} (m.cacheMarshal []) = .ok m' ∧ SameContent m m' ∧
      m'.ttl = m.ttl) ∧
    ∀ buf, buf <+: m.cacheMarshal [] → buf ≠ m.cacheMarshal [] →
      cacheUnmarshalView {} buf = .error .cacheUnmarshal := by
  have hsize : m.serialize.length = m.cachesize := length_serialize hform
  have hout : m.cacheMarshal [] = m.ttlBytes ++ m.serialize := rfl
  have hlen : (m.cacheMarshal []).length = m.cacheSize := by
    rw [hout, length_append, ttlBytes_length, hsize, cacheSize, Nat.add_comm]
  have hbound : m.ttlBytes.length + m.serialize.length < 2 ^ 63 := by
    rw [← length_append, ← hout, hlen]
    exact hfits
  obtain ⟨m', hsame, httl, hreads⟩ := reads_of_cacheForm hform m.ttl
  refine ⟨hlen, ⟨{ m' with attrs := some cacheMark }, ?_, hsame.withAttrs _, httl⟩, ?_⟩
  · rw [hout, cacheUnmarshalView_upTo hreads hbound (prefix_refl _), upTo_ok]
    · rfl
    · rw [length_append, ttlBytes_length, hsize]
  · intro buf hbuf hne
    rw [hout] at hbuf hne
    rcases prefix_append_cases hbuf with hshort | ⟨r, rfl, hr⟩
    · rw [ttlBytes_length] at hshort
      exact if_pos hshort
    · -- the rest is shorter than the message
      have hshort : r.length < m.serialize.length := by
        apply Nat.lt_of_le_of_ne hr.length_le
        intro heq
        exact hne (by rw [hr.eq_of_length heq])
      rw [cacheUnmarshalView_upTo hreads hbound hr, upTo_error]
      · rfl
      · rw [length_append, ttlBytes_length]
        omega

def marshalled : RedisMessage :=
  ({ typ := typeMap, ttl := 5 } : RedisMessage).setValues
    [({ typ := typeSimpleString } : RedisMessage).setString (lit "a"),
      ({ typ := typeArray } : RedisMessage).setValues []]

theorem cacheMarshal_roundTrip_map :
    (marshalled.cacheMarshal []).length = 35 ∧
    (∃ m', cacheUnmarshalView {} (marshalled.cacheMarshal []) = .ok m' ∧
      SameContent marshalled m' ∧ m'.ttl = 5) ∧
    ∀ buf, buf <+: marshalled.cacheMarshal [] → buf ≠ marshalled.cacheMarshal [] →
      cacheUnmarshalView {} buf = .error .cacheUnmarshal := by
  apply cacheMarshal_roundTrip (m := marshalled)
  · refine .elements (.inr (.inl rfl)) rfl rfl (by decide) ?_
    intro v hv
    rcases mem_pair.mp hv with rfl | rfl
    · exact .text (by decide) (by decide) rfl rfl
    · exact .elements (.inl rfl) rfl rfl (by decide) nofun
  · decide

end Rueidis
