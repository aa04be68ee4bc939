import Rueidis.Library.BlockCopy
import Rueidis.Resp.RoundTrip

/-!
# Streaming a reply to a writer

`streamTo` copies the text of one reply to an `io.Writer`.  Its `clean` flag tells the caller whether
the connection stands at the next reply.
-/

namespace Rueidis

open List Int64

open Decimal (numeral numeralInt)
open Wire (encode encodeElems messageWith messages Valid ValidElems)

inductive StreamErr (ω : Type) where
  | read (e : ReadErr)
  | copy (e : CopyErr ω)
  | write (e : ω)
  /-- `Nil` or the reply's own error. -/
  | reply (e : Err)
  | unsupported (text : String)
deriving DecidableEq, Repr

structure Streamed (σ ω : Type) where
  n : Int64
  err : Option (StreamErr ω)
  clean : Bool
  state : σ
  unread : Bytes
deriving DecidableEq, Repr

def discardCount (n : Int64) : RespReader Unit :=
  if n < 0 then ByteReader.fail .negativeCount else discard n.toNatClampNeg

def IsStreamed (typ : UInt8) : Prop :=
  typ = typeBlobString ∨ typ = typeVerbatimString ∨ typ = typeChunk

instance (typ : UInt8) : Decidable (IsStreamed typ) :=
  inferInstanceAs (Decidable (_ ∨ _ ∨ _))

section StreamTo

variable {σ ω : Type} (w : BlockWriter σ ω) (block : Nat → Nat)

/-- The text of a length-prefixed blob or chunk; the skip behind it is computed from the number of
bytes written. -/
def streamBlob (n : Int64) (s : σ) (r : Bytes) : Streamed σ ω :=
  let full := n + 2
  let c := if n ≠ 0 then w.copy block n.toNatClampNeg n.toNatClampNeg s r else ⟨s, 0, none, r⟩
  let n := Int64.ofNat c.written
  match discardCount (full - n) c.unread with
  | (.ok _, r') => ⟨n, c.err.map .copy, true, c.state, r'⟩
  | (.error e, r') => ⟨n, some ((c.err.map .copy).getD (.read e)), false, c.state, r'⟩

def streamReply (typ : UInt8) (m : RedisMessage) (s : σ) (r : Bytes) : Streamed σ ω :=
  if m.typ = typeSimpleString ∨ m.typ = typeFloat ∨ m.typ = typeBigNumber then
    let (s', n, err) := w.write s m.string
    ⟨Int64.ofInt n, err.map .write, true, s', r⟩
  else if m.typ = typeNull then ⟨0, some (.reply .nil), true, s, r⟩
  else if m.typ = typeSimpleErr ∨ m.typ = typeBlobErr then
    ⟨0, some (.reply (.redis m)), true, s, r⟩
  else if m.typ = typeInteger ∨ m.typ = typeBool then
    let (s', n, err) := w.write s (numeralInt m.intlen.toInt)
    ⟨Int64.ofInt n, err.map .write, true, s', r⟩
  else
    ⟨0, some (.unsupported ("unsupported redis \"" ++ typeNames typ ++
      "\" response for streaming read")), true, s, r⟩

mutual

def streamToLoop : Nat → σ → Bytes → Streamed σ ω
  | 0, s, r => ⟨0, some (.read .outOfFuel), false, s, r⟩
  | _ + 1, s, [] => ⟨0, some (.read .eof), false, s, []⟩
  | fuel + 1, s, typ :: r =>
    if IsStreamed typ then
      match readI r with
      | (.error .errChunked, r') =>
        let c := streamChunks fuel 0 s r'
        { c with clean := c.clean && c.err.isNone }
      | (.error e, r') => ⟨0, some (.read e), false, s, r'⟩
      | (.ok n, r') =>
        if n = -1 then ⟨0, some (.reply .nil), true, s, r'⟩
        else if n = 0 ∧ typ = typeChunk then ⟨0, none, true, s, r'⟩
        else streamBlob w block n s r'
    else
      match readNextMessage (typ :: r) with
      | (.error e, r') => ⟨0, some (.read e), false, s, r'⟩
      | (.ok m, r') =>
        -- a push is dropped and the reply behind it is streamed
        if m.typ = typePush then streamToLoop fuel s r' else streamReply w typ m s r'

def streamChunks : Nat → Int64 → σ → Bytes → Streamed σ ω
  | 0, n, s, r => ⟨n, some (.read .outOfFuel), false, s, r⟩
  | fuel + 1, n, s, r =>
    let c := streamToLoop fuel s r
    if c.n ≠ 0 ∧ c.clean ∧ c.err.isNone then streamChunks fuel (n + c.n) c.state c.unread
    else { c with n := n + c.n }

end

def streamTo (s : σ) (r : Bytes) : Streamed σ ω := streamToLoop w block (r.length + 1) s r

/-! ## Replies that are read as a whole -/

theorem streamReply_clean (typ : UInt8) (m : RedisMessage) (s : σ) (r : Bytes) :
    (streamReply w typ m s r).clean = true ∧ (streamReply w typ m s r).unread = r := by
  unfold streamReply
  split
  · exact ⟨rfl, rfl⟩
  · split
    · exact ⟨rfl, rfl⟩
    · split
      · exact ⟨rfl, rfl⟩
      · split <;> exact ⟨rfl, rfl⟩

def Wire.copied : Wire → Bool
  | .blob .blobString _ => true
  | .blob .verbatimString _ => true
  | .chunked .blobString _ => true
  | .chunked .verbatimString _ => true
  | .oldNull true => true
  | _ => false

theorem encode_head_of_not_copied (m : Wire) (hm : m.copied = false) :
    ∃ typ r, encode m = typ :: r ∧ ¬ IsStreamed typ := by
  match m with
  | .line kind t => exact ⟨kind.typ, _, by rw [encode], by cases kind <;> decide⟩
  | .blob .blobErr t => exact ⟨typeBlobErr, _, by rw [encode]; rfl, by decide⟩
  | .chunked .blobErr cs => exact ⟨typeBlobErr, _, by rw [encode]; rfl, by decide⟩
  | .integer v => exact ⟨typeInteger, _, by rw [encode], by decide⟩
  | .boolean b => exact ⟨typeBool, _, by rw [encode], by decide⟩
  | .null => exact ⟨typeNull, _, by rw [encode], by decide⟩
  | .oldNull false => exact ⟨typeArray, _, by rw [encode]; rfl, by decide⟩
  | .aggregate kind s es => exact ⟨kind.typ, _, by rw [encode], by cases kind <;> decide⟩
  | .attribute s es next => exact ⟨typeAttribute, _, by rw [encode]; rfl, by decide⟩

theorem streamToLoop_message (m : Wire) (hm : m.copied = false) (hv : m.Valid) (fuel : Nat) (s : σ)
    (r : Bytes) : ∃ typ, streamToLoop w block (fuel + 1) s (encode m ++ r) =
      if m.typ = typePush then streamToLoop w block fuel s r
      else streamReply w typ m.message s r := by
  obtain ⟨typ, tail, henc, hhead⟩ := encode_head_of_not_copied m hm
  have hread := readNextMessage_encode m hv r
  rw [henc, cons_append] at hread
  refine ⟨typ, ?_⟩
  rw [henc, cons_append, streamToLoop, if_neg hhead, hread]
  dsimp only
  rw [Wire.message, Wire.messageWith_typ]

/-! ## Copied replies -/

theorem discardCount_ofNat {k : Nat} (hk : k < 2 ^ 63) (r : Bytes) :
    discardCount (ofNat k) r =
      if k ≤ r.length then (.ok (), r.drop k) else (.error .eof, []) := by
  have hnn : ¬ ofNat k < 0 := by
    rw [lt_iff_toInt_lt, toInt_ofNat_of_lt hk]
    simp
  unfold discardCount
  rw [if_neg hnn, toNatClampNeg_ofNat_of_lt hk]
  rfl

/-- How much of a block the writer refuses in a copy of `text` when `rest` follows its line end. -/
def refusedText (s : σ) (text rest : Bytes) : Nat :=
  w.refused s (BlockWriter.blocks block text.length text.length (text ++ crlf ++ rest))

theorem streamBlob_spec (text rest : Bytes) (s : σ) (hfit : text.length + 2 < 2 ^ 63) :
    (streamBlob w block (ofNat text.length) s (text ++ crlf ++ rest)).clean =
        decide (refusedText w block s text rest ≤ rest.length) ∧
    (refusedText w block s text rest ≤ rest.length →
      (streamBlob w block (ofNat text.length) s (text ++ crlf ++ rest)).unread =
        rest.drop (refusedText w block s text rest)) ∧
    ((streamBlob w block (ofNat text.length) s (text ++ crlf ++ rest)).err = none →
      refusedText w block s text rest = 0 ∧
      (streamBlob w block (ofNat text.length) s (text ++ crlf ++ rest)).n =
        ofNat text.length) := by
  set r := text ++ crlf ++ rest with hr
  have hrlen : r.length = text.length + 2 + rest.length := by
    simp only [hr, crlf, length_append, length_cons, length_nil]
  have hcopy : (if ofNat text.length ≠ 0 then
      w.copy block (ofNat text.length).toNatClampNeg (ofNat text.length).toNatClampNeg s r
      else ⟨s, 0, none, r⟩) = w.copy block text.length text.length s r := by
    rw [toNatClampNeg_ofNat_of_lt (by omega)]
    split
    · rfl
    · rename_i hzero
      have hlen : text.length = 0 := by
        by_contra hpos
        exact hzero (ofNat_pos (Nat.pos_of_ne_zero hpos) (by omega)).1
      rw [hlen]
      rfl
  obtain ⟨hbound, hunread, hdone⟩ := w.copy_spec block text.length text.length s r le_rfl (by omega)
  unfold streamBlob
  dsimp only
  rw [hcopy]
  set c := w.copy block text.length text.length s r with hc
  have hk : refusedText w block s text rest =
      w.refused s (BlockWriter.blocks block text.length text.length r) := rfl
  rw [← hk] at hbound hunread hdone
  set k := refusedText w block s text rest with hkdef
  have hskip : ofNat text.length + 2 - ofNat c.written =
      ofNat (text.length + 2 - c.written) := by
    rw [ofNat_sub _ _ (by omega), ofNat_add]
    rfl
  have hclen : c.unread.length = r.length - (c.written + k) := by rw [hunread, length_drop]
  have hfits : text.length + 2 - c.written ≤ c.unread.length ↔ k ≤ rest.length := by omega
  rw [hskip, discardCount_ofNat (by omega)]
  by_cases hle : k ≤ rest.length
  · rw [if_pos (hfits.mpr hle)]
    refine ⟨by simpa using hle, fun _ => ?_, fun herr => ?_⟩
    · rw [hunread, drop_drop, hr, show c.written + k + (text.length + 2 - c.written) =
        (text ++ crlf).length + k by simp [crlf]; omega, ← drop_drop, drop_left]
    · have hnone : c.err = none := by simpa using herr
      obtain ⟨hwritten, hzero⟩ := hdone hnone
      exact ⟨hzero, by rw [hwritten]⟩
  · rw [if_neg (fun h => hle (hfits.mp h))]
    exact ⟨by simpa using hle, fun h => absurd h hle, by simp⟩

theorem streamToLoop_counted {typ : UInt8} (htyp : IsStreamed typ) (text rest : Bytes) (fuel : Nat)
    (s : σ) (hchunk : typ = typeChunk → text ≠ []) (hfit : text.length + 2 < 2 ^ 63) :
    streamToLoop w block (fuel + 1) s
        (typ :: (numeral text.length ++ crlf ++ text ++ crlf ++ rest)) =
      streamBlob w block (ofNat text.length) s (text ++ crlf ++ rest) := by
  have hI := readI_numeral text.length (by omega) (text ++ crlf ++ rest)
  have hassoc : numeral text.length ++ crlf ++ text ++ crlf ++ rest =
      numeral text.length ++ crlf ++ (text ++ crlf ++ rest) := by simp
  have hnz : ¬ (ofNat text.length = 0 ∧ typ = typeChunk) := by
    rintro ⟨hzero, hc⟩
    have hpos : 0 < text.length := length_pos_of_ne_nil (hchunk hc)
    exact (ofNat_pos hpos (by omega)).1 hzero
  rw [streamToLoop, if_pos htyp, hassoc, hI]
  dsimp only
  rw [if_neg (ofNat_ne_negOne (by omega)), if_neg hnz]

theorem streamToLoop_lastChunk (fuel : Nat) (s : σ) (rest : Bytes) :
    streamToLoop w block (fuel + 1) s (chunksThen [] rest) = ⟨0, none, true, s, rest⟩ := by
  change streamToLoop w block (fuel + 1) s (typeChunk :: 48 :: (crlf ++ rest)) = _
  rw [streamToLoop, if_pos (by decide), readI_zero]
  rfl

theorem streamChunks_sound (cs : List Chunk) (fuel : Nat) (n : Int64) (s : σ) (rest : Bytes)
    (hfuel : cs.length + 1 < fuel) (hfit : ∀ c ∈ cs, c.text.length + 2 < 2 ^ 63)
    (hclean : (streamChunks w block fuel n s (chunksThen cs rest)).clean = true)
    (herr : (streamChunks w block fuel n s (chunksThen cs rest)).err = none) :
    (streamChunks w block fuel n s (chunksThen cs rest)).unread = rest := by
  induction cs generalizing fuel n s with
  | nil =>
    obtain ⟨fuel, rfl⟩ : ∃ k, fuel = k + 2 := ⟨fuel - 2, by simp at hfuel; omega⟩
    rw [streamChunks, streamToLoop_lastChunk]
    rfl
  | cons c cs ih =>
    rw [length_cons] at hfuel
    obtain ⟨fuel, rfl⟩ : ∃ k, fuel = k + 2 := ⟨fuel - 2, by omega⟩
    have hc := hfit c (by simp)
    rw [chunksThen_cons] at hclean herr ⊢
    set tail := chunksThen cs rest
    have hone := streamToLoop_counted w block (show IsStreamed typeChunk by decide) c.text tail
      fuel s (fun _ => c.nonempty) hc
    rw [streamChunks, hone] at hclean herr ⊢
    obtain ⟨hflag, hunread, hok⟩ := streamBlob_spec w block c.text tail s hc
    set b := streamBlob w block (ofNat c.text.length) s (c.text ++ crlf ++ tail) with hb
    by_cases hgo : b.n ≠ 0 ∧ b.clean = true ∧ b.err.isNone = true
    · -- the chunk went through, so the loop stands at the next one
      have hzero : refusedText w block s c.text tail = 0 := (hok (by simpa using hgo.2.2)).1
      have hnext : b.unread = tail := by
        rw [hunread (by omega), hzero, drop_zero]
      rw [if_pos hgo, hnext] at hclean herr ⊢
      exact ih (fuel + 1) _ _ (by omega) (fun d hd => hfit d (by simp [hd])) hclean herr
    · -- the loop ends here, and a copy without an error has a non-zero count
      rw [if_neg hgo] at hclean herr
      have hcount : b.n = ofNat c.text.length := (hok herr).2
      have hpos : 0 < c.text.length := length_pos_of_ne_nil c.nonempty
      have hne : b.n ≠ 0 := by
        rw [hcount]
        exact (ofNat_pos hpos (by omega)).1
      have herr' : b.err.isNone = true := by
        rw [show b.err = none from herr]
        rfl
      exact absurd ⟨hne, hclean, herr'⟩ hgo

/-! ## The clean flag -/

end StreamTo

theorem typ_ne_push_of_copied (m : Wire) (hm : m.copied = true) : m.typ ≠ typePush := by
  match m with
  | .blob .blobString _ | .blob .verbatimString _ | .chunked .blobString _
  | .chunked .verbatimString _ | .oldNull true =>
    rw [Wire.typ]
    decide

section Clean

variable {σ ω : Type} (w : BlockWriter σ ω) (block : Nat → Nat)

theorem streamToLoop_pushes (ps : List PushForm) (fuel : Nat) (s : σ) (r : Bytes) :
    streamToLoop w block (fuel + ps.length) s (encodePushes ps ++ r) =
      streamToLoop w block fuel s r := by
  induction ps with
  | nil => rfl
  | cons p ps ih =>
    have hnot : p.wire.copied = false := by
      by_contra hc
      exact typ_ne_push_of_copied p.wire (by simpa using hc) p.push
    obtain ⟨typ, hstep⟩ := streamToLoop_message w block p.wire hnot p.valid (fuel + ps.length) s
      (encodePushes ps ++ r)
    have hsplit : encodePushes (p :: ps) ++ r = p.wire.encode ++ (encodePushes ps ++ r) := by
      simp [encodePushes]
    rw [hsplit, length_cons, ← Nat.add_assoc, hstep, if_pos p.push, ih]

/-- The part of a block that the writer refuses while the text of a length-prefixed reply is
copied. -/
def refusedReply (s : σ) (reply : Wire) (rest : Bytes) : Nat :=
  match reply with
  | .blob .blobString t => refusedText w block s t.text rest
  | .blob .verbatimString t => refusedText w block s t.text rest
  | _ => 0

theorem streamToLoop_blob_sound {typ : UInt8} (htyp : IsStreamed typ) (hnc : typ ≠ typeChunk)
    (text rest : Bytes) (fuel : Nat) (s : σ) (hfit : text.length + 2 < 2 ^ 63) :
    ((streamToLoop w block (fuel + 1) s
        (typ :: (numeral text.length ++ crlf ++ text ++ crlf ++ rest))).clean = true →
      (streamToLoop w block (fuel + 1) s
        (typ :: (numeral text.length ++ crlf ++ text ++ crlf ++ rest))).unread = rest) ↔
    refusedText w block s text rest = 0 ∨ rest.length < refusedText w block s text rest := by
  rw [streamToLoop_counted w block htyp text rest fuel s (fun h => absurd h hnc) hfit]
  obtain ⟨hflag, hunread, -⟩ := streamBlob_spec w block text rest s hfit
  rw [hflag, decide_eq_true_iff]
  set k := refusedText w block s text rest
  constructor
  · intro hsound
    by_cases hle : k ≤ rest.length
    · left
      have hdrop := hsound hle
      rw [hunread hle] at hdrop
      have hlen := congrArg length hdrop
      rw [length_drop] at hlen
      omega
    · right
      omega
  · rintro (hzero | hlt) hle
    · rw [hunread hle, hzero, drop_zero]
    · omega

theorem streamToLoop_chunked_sound {typ : UInt8} (htyp : IsStreamed typ) (cs : List Chunk)
    (fuel : Nat) (s : σ) (rest : Bytes) (hfuel : cs.length + 1 < fuel)
    (hfit : ∀ c ∈ cs, c.text.length + 2 < 2 ^ 63)
    (hclean : (streamToLoop w block (fuel + 1) s
      (typ :: (63 :: crlf ++ chunksThen cs rest))).clean = true) :
    (streamToLoop w block (fuel + 1) s (typ :: (63 :: crlf ++ chunksThen cs rest))).unread = rest := by
  rw [streamToLoop, if_pos htyp, readI_question] at hclean ⊢
  rw [Bool.and_eq_true, Option.isNone_iff_eq_none] at hclean
  exact streamChunks_sound w block cs fuel 0 s rest hfuel hfit hclean.1 hclean.2

theorem streamToLoop_reply_iff (reply : ReplyForm) (fuel : Nat) (s : σ) (rest : Bytes)
    (hfuel : reply.wire.encode.length ≤ fuel) :
    ((streamToLoop w block (fuel + 1) s (reply.wire.encode ++ rest)).clean = true →
      (streamToLoop w block (fuel + 1) s (reply.wire.encode ++ rest)).unread = rest) ↔
    refusedReply w block s reply.wire rest = 0 ∨
      rest.length < refusedReply w block s reply.wire rest := by
  obtain ⟨m, hvalid, hnotPush⟩ := reply
  have halloc : maxAlloc = 2 ^ 48 := rfl
  by_cases hcopied : m.copied = true
  · match m with
    | .blob .blobString t | .blob .verbatimString t =>
      have hfits := t.fits
      rw [encode]
      exact streamToLoop_blob_sound w block (by decide) (by decide) t.text rest fuel s (by omega)
    | .chunked .blobString cs | .chunked .verbatimString cs =>
      have hlen := length_le_encodeChunks cs
      rw [encode_chunked_append]
      rw [encode] at hfuel
      simp only [length_cons, length_append, cons_append] at hfuel
      refine ⟨fun _ => .inl rfl, fun _ => ?_⟩
      exact streamToLoop_chunked_sound w block (by decide) cs fuel s rest (by omega)
        (fun c _ => by have := c.fits; omega)
    | .oldNull true =>
      have hI : readI (numeralInt (-1) ++ crlf ++ rest) = (.ok (-1), rest) :=
        readI_numeralInt (-1) (by decide) rest
      rw [encode, cons_append, streamToLoop, if_pos (by decide), hI]
      exact ⟨fun _ => .inl rfl, fun _ _ => rfl⟩
  · rw [Bool.not_eq_true] at hcopied
    obtain ⟨typ, hstep⟩ := streamToLoop_message w block m hcopied hvalid fuel s rest
    have hnone : refusedReply w block s m rest = 0 := by
      unfold refusedReply
      split
      · cases hcopied
      · cases hcopied
      · rfl
    rw [hstep, if_neg hnotPush, hnone]
    exact ⟨fun _ => .inl rfl, fun _ _ => (streamReply_clean w typ m.message s rest).2⟩

theorem length_le_encodePushes (ps : List PushForm) : ps.length ≤ (encodePushes ps).length := by
  induction ps with
  | nil => simp
  | cons p ps ih =>
    have hpos := encode_length_pos p.wire
    unfold encodePushes at ih ⊢
    rw [flatMap_cons, length_append, length_cons]
    omega

/-- `clean` promises that the connection stands behind the reply.  It keeps the promise exactly when
the writer refuses no part of a block of a length-prefixed text, or refuses more bytes than follow
the reply, so that the skip fails. -/
theorem streamTo_clean_sound_iff (s : σ) (ps : List PushForm) (reply : ReplyForm) (rest : Bytes) :
    ((streamTo w block s (encodePushes ps ++ reply.wire.encode ++ rest)).clean = true →
      (streamTo w block s (encodePushes ps ++ reply.wire.encode ++ rest)).unread = rest) ↔
    refusedReply w block s reply.wire rest = 0 ∨
      rest.length < refusedReply w block s reply.wire rest := by
  have hps := length_le_encodePushes ps
  obtain ⟨k, hk⟩ : ∃ k, (encodePushes ps ++ reply.wire.encode ++ rest).length + 1 =
      reply.wire.encode.length + k + 1 + ps.length := by
    refine ⟨(encodePushes ps).length + rest.length - ps.length, ?_⟩
    rw [length_append, length_append]
    omega
  unfold streamTo
  rw [hk, append_assoc, streamToLoop_pushes]
  exact streamToLoop_reply_iff w block reply _ s rest (by omega)

end Clean

/-- A destination with room for so many bytes, which then reports that it is full. -/
def boundedWriter : BlockWriter Nat String where
  write room b :=
    (room - min room b.length, (min room b.length : Nat),
      if room < b.length then some "full" else none)

/-- Two bytes of `hello` are taken: the flag is set and the next reply has lost its first bytes. -/
theorem streamTo_clean_unsound :
    (streamTo boundedWriter id 2 (lit "$5\r\nhello\r\n" ++ lit ":1\r\n:2\r\n")).clean = true ∧
    (streamTo boundedWriter id 2 (lit "$5\r\nhello\r\n" ++ lit ":1\r\n:2\r\n")).unread =
      lit "\n:2\r\n" ∧
    lit "\n:2\r\n" ≠ lit ":1\r\n:2\r\n" := by
  decide

end Rueidis
