import Rueidis.Resp.Stream

/-!
# Streaming and parsing agree

Streamed to a writer that takes everything, a scalar reply arrives as the text that `readNextMessage`
would have parsed.  `streamTo` reads blobs and chunks on its own, so these are two parsers.
-/

namespace Rueidis

open List Int64

open Decimal (numeral numeralInt)
open Wire (encode)

def RedisMessage.streamed (m : RedisMessage) : Except Err Bytes :=
  if m.typ = typeNull then .error .nil
  else if m.typ = typeSimpleErr ∨ m.typ = typeBlobErr then .error (.redis m)
  else if m.typ = typeInteger ∨ m.typ = typeBool then .ok (numeralInt m.intlen.toInt)
  else .ok m.string

def Wire.scalar : Wire → Bool
  | .aggregate _ _ _ => false
  | .attribute _ _ _ => false
  | _ => true

section Streamed

variable {σ ω : Type} {w : BlockWriter σ ω} {log : σ → Bytes}

def Delivers (log : σ → Bytes) (s : σ) (m : RedisMessage) (rest : Bytes) (out : Streamed σ ω) : Prop :=
  out.clean = true ∧ out.unread = rest ∧
    match m.streamed with
    | .ok text => out.err = none ∧ out.n = Int64.ofNat text.length ∧ log out.state = log s ++ text
    | .error e => out.err = some (.reply e) ∧ out.n = 0 ∧ out.state = s

/-! ## Replies that are read as a whole -/

def isWhole (typ : UInt8) : Prop :=
  (typ = typeSimpleString ∨ typ = typeFloat ∨ typ = typeBigNumber) ∨ typ = typeNull ∨
    (typ = typeSimpleErr ∨ typ = typeBlobErr) ∨ typ = typeInteger ∨ typ = typeBool

theorem streamReply_delivers (hw : w.Accepts log) (typ : UInt8) {m : RedisMessage}
    (hm : isWhole m.typ) (s : σ) (rest : Bytes) :
    Delivers log s m rest (streamReply w typ m s rest) := by
  unfold Delivers streamReply RedisMessage.streamed
  rcases hm with htext | hnull | herr | hnumber
  · obtain ⟨s', hwrite, hlog⟩ := hw s m.string
    have hnull : m.typ ≠ typeNull := by rcases htext with h | h | h <;> rw [h] <;> decide
    have herr : ¬ (m.typ = typeSimpleErr ∨ m.typ = typeBlobErr) := by
      rcases htext with h | h | h <;> rw [h] <;> decide
    have hnumber : ¬ (m.typ = typeInteger ∨ m.typ = typeBool) := by
      rcases htext with h | h | h <;> rw [h] <;> decide
    rw [if_pos htext, if_neg hnull, if_neg herr, if_neg hnumber, hwrite]
    exact ⟨rfl, rfl, rfl, ofInt_eq_ofNat, hlog⟩
  · have htext : ¬ (m.typ = typeSimpleString ∨ m.typ = typeFloat ∨ m.typ = typeBigNumber) := by
      rw [hnull]
      decide
    rw [if_neg htext, if_pos hnull, if_pos hnull]
    exact ⟨rfl, rfl, rfl, rfl, rfl⟩
  · have htext : ¬ (m.typ = typeSimpleString ∨ m.typ = typeFloat ∨ m.typ = typeBigNumber) := by
      rcases herr with h | h <;> rw [h] <;> decide
    have hnull : m.typ ≠ typeNull := by rcases herr with h | h <;> rw [h] <;> decide
    rw [if_neg htext, if_neg hnull, if_pos herr, if_neg hnull, if_pos herr]
    exact ⟨rfl, rfl, rfl, rfl, rfl⟩
  · obtain ⟨s', hwrite, hlog⟩ := hw s (numeralInt m.intlen.toInt)
    have htext : ¬ (m.typ = typeSimpleString ∨ m.typ = typeFloat ∨ m.typ = typeBigNumber) := by
      rcases hnumber with h | h <;> rw [h] <;> decide
    have hnull : m.typ ≠ typeNull := by rcases hnumber with h | h <;> rw [h] <;> decide
    have herr : ¬ (m.typ = typeSimpleErr ∨ m.typ = typeBlobErr) := by
      rcases hnumber with h | h <;> rw [h] <;> decide
    rw [if_neg htext, if_neg hnull, if_neg herr, if_pos hnumber, if_neg hnull, if_neg herr,
      if_pos hnumber, hwrite]
    exact ⟨rfl, rfl, rfl, ofInt_eq_ofNat, hlog⟩

theorem isWhole_of_scalar (reply : Wire) (hscalar : reply.scalar = true)
    (hcopied : reply.copied = false) : isWhole reply.typ := by
  match reply with
  | .line kind _ =>
    rw [Wire.typ]
    cases kind <;> unfold isWhole <;> decide
  | .blob .blobErr _ | .chunked .blobErr _ | .integer _ | .boolean _ | .null | .oldNull false =>
    rw [Wire.typ]
    unfold isWhole
    decide

/-! ## Copied replies -/

theorem streamBlob_accepts (hw : w.Accepts log) (block : Nat → Nat) (text rest : Bytes) (s : σ)
    (hfit : text.length ≤ maxAlloc) :
    ∃ s', streamBlob w block (ofNat text.length) s (text ++ crlf ++ rest) =
        ⟨ofNat text.length, none, true, s', rest⟩ ∧ log s' = log s ++ text := by
  have halloc : maxAlloc = 2 ^ 48 := rfl
  have hlen : (text ++ crlf ++ rest).length = text.length + 2 + rest.length := by
    simp only [crlf, length_append, length_cons, length_nil]
  -- an empty text is not copied, which comes to the same
  obtain ⟨s', hcopy, hlog⟩ : ∃ s', (if ofNat text.length ≠ 0 then
      w.copy block (ofNat text.length).toNatClampNeg (ofNat text.length).toNatClampNeg s
        (text ++ crlf ++ rest)
      else ⟨s, 0, none, text ++ crlf ++ rest⟩) = ⟨s', text.length, none, crlf ++ rest⟩ ∧
        log s' = log s ++ text := by
    split
    · obtain ⟨s', hcopy, hlog⟩ := hw.copy block text.length text.length s (text ++ crlf ++ rest)
        (Nat.le_refl _) (by omega)
      rw [append_assoc, take_left] at hlog
      rw [toNatClampNeg_ofNat_of_lt (by omega)]
      refine ⟨s', ?_, hlog⟩
      rw [hcopy, append_assoc, drop_left]
    · rename_i hzero
      have hnil : text = [] := by
        by_contra hne
        exact hzero (ofNat_pos (length_pos_of_ne_nil hne) (by omega)).1
      rw [hnil]
      exact ⟨s, rfl, (append_nil _).symm⟩
  have hskip : ofNat text.length + 2 - ofNat text.length = ofNat 2 := by
    rw [Int64.add_comm, Int64.add_sub_cancel]
    rfl
  refine ⟨s', ?_, hlog⟩
  unfold streamBlob
  dsimp only
  rw [hcopy]
  rw [hskip, discardCount_ofNat (by decide), if_pos (by simp [crlf])]
  rfl

theorem streamChunks_accepts (hw : w.Accepts log) (block : Nat → Nat) (cs : List Chunk) (fuel : Nat)
    (n : Int64) (s : σ) (rest : Bytes) (hfuel : cs.length + 1 < fuel) :
    ∃ s', streamChunks w block fuel n s (chunksThen cs rest) =
        ⟨n + ofNat (cs.flatMap (·.text)).length, none, true, s', rest⟩ ∧
      log s' = log s ++ cs.flatMap (·.text) := by
  have halloc : maxAlloc = 2 ^ 48 := rfl
  induction cs generalizing fuel n s with
  | nil =>
    obtain ⟨fuel, rfl⟩ : ∃ k, fuel = k + 2 := ⟨fuel - 2, by simp at hfuel; omega⟩
    refine ⟨s, ?_, (append_nil _).symm⟩
    rw [streamChunks, streamToLoop_lastChunk]
    rfl
  | cons c cs ih =>
    rw [length_cons] at hfuel
    obtain ⟨fuel, rfl⟩ : ∃ k, fuel = k + 2 := ⟨fuel - 2, by omega⟩
    have hfit := c.fits
    have hone := streamToLoop_counted w block (show IsStreamed typeChunk by decide) c.text
      (chunksThen cs rest) fuel s (fun _ => c.nonempty) (by omega)
    obtain ⟨s₁, hblob, hlog₁⟩ := streamBlob_accepts hw block c.text (chunksThen cs rest) s hfit
    obtain ⟨s₂, hrest, hlog₂⟩ := ih (fuel + 1) (n + ofNat c.text.length) s₁ (by omega)
    have hpos := (ofNat_pos (length_pos_of_ne_nil c.nonempty) (by omega)).1
    refine ⟨s₂, ?_, ?_⟩
    · rw [chunksThen_cons, streamChunks, hone, hblob]
      rw [if_pos ⟨hpos, rfl, rfl⟩, hrest, flatMap_cons, length_append, ofNat_add,
        Int64.add_assoc]
    · rw [hlog₂, hlog₁, append_assoc, flatMap_cons]

/-! ## All scalar replies -/

theorem delivers_text {out : Streamed σ ω} {s s' : σ} {m : RedisMessage} {text rest : Bytes} {n : Int64}
    (hm : m.streamed = .ok text) (hout : out = ⟨n, none, true, s', rest⟩)
    (hn : n = ofNat text.length) (hlog : log s' = log s ++ text) :
    Delivers log s m rest out := by
  unfold Delivers
  rw [hm, hout]
  exact ⟨rfl, rfl, rfl, hn, hlog⟩

theorem streamToLoop_copied (hw : w.Accepts log) (block : Nat → Nat) (reply : Wire)
    (hcopied : reply.copied = true) (fuel : Nat) (s : σ) (rest : Bytes)
    (hfuel : reply.encode.length ≤ fuel) :
    Delivers log s reply.message rest (streamToLoop w block (fuel + 1) s (reply.encode ++ rest)) := by
  have halloc : maxAlloc = 2 ^ 48 := rfl
  have hblob : ∀ (kind : BlobKind) (t : BlobText), IsStreamed kind.typ → kind.typ ≠ typeChunk →
      (Wire.blob kind t).message.streamed = .ok t.text →
      Delivers log s (Wire.blob kind t).message rest
        (streamToLoop w block (fuel + 1) s ((Wire.blob kind t).encode ++ rest)) := by
    intro kind t hkind hchunk hm
    have hfits := t.fits
    obtain ⟨s', hout, hlog⟩ := streamBlob_accepts hw block t.text rest s t.fits
    refine delivers_text hm ?_ rfl hlog
    rw [encode, List.cons_append,
      streamToLoop_counted w block hkind t.text rest fuel s (fun h => absurd h hchunk) (by omega), hout]
  have hchunked : ∀ (kind : BlobKind) (cs : List Chunk), IsStreamed kind.typ →
      (Wire.chunked kind cs).encode.length ≤ fuel →
      (Wire.chunked kind cs).message.streamed = .ok (cs.flatMap (·.text)) →
      Delivers log s (Wire.chunked kind cs).message rest
        (streamToLoop w block (fuel + 1) s ((Wire.chunked kind cs).encode ++ rest)) := by
    intro kind cs hkind hfuel hm
    have hcount := length_le_encodeChunks cs
    rw [encode] at hfuel
    simp only [crlf, List.length_cons, List.length_append, List.length_nil, List.cons_append] at hfuel
    obtain ⟨s', hout, hlog⟩ := streamChunks_accepts hw block cs fuel 0 s rest (by omega)
    refine delivers_text hm ?_ (Int64.zero_add _) hlog
    rw [encode_chunked_append, streamToLoop, if_pos hkind, readI_question]
    dsimp only
    rw [hout]
    rfl
  cases reply with
  | blob kind t =>
    cases kind with
    | blobString => exact hblob .blobString t (by decide) (by decide) rfl
    | verbatimString => exact hblob .verbatimString t (by decide) (by decide) rfl
    | _ => cases hcopied
  | chunked kind cs =>
    cases kind with
    | blobString => exact hchunked .blobString cs (by decide) hfuel rfl
    | verbatimString => exact hchunked .verbatimString cs (by decide) hfuel rfl
    | _ => cases hcopied
  | oldNull asBlob =>
    cases asBlob
    case false => cases hcopied
    have hI : readI (numeralInt (-1) ++ crlf ++ rest) = (.ok (-1), rest) :=
      readI_numeralInt (-1) (by decide) rest
    rw [encode, List.cons_append, streamToLoop, if_pos (by decide), hI]
    exact ⟨rfl, rfl, rfl, rfl, rfl⟩
  | _ => cases hcopied

/-- Behind any pushes, a scalar reply is streamed as the message that it is parsed as: its text, the
decimal form of its number, or its error with nothing written. -/
theorem streamTo_agrees (hw : w.Accepts log) (block : Nat → Nat) (s : σ) (ps : List PushForm)
    (reply : Wire) (hvalid : reply.Valid) (hscalar : reply.scalar = true) (rest : Bytes) :
    ∃ m, readNextMessage (reply.encode ++ rest) = (.ok m, rest) ∧
      Delivers log s m rest (streamTo w block s (encodePushes ps ++ reply.encode ++ rest)) := by
  refine ⟨reply.message, readNextMessage_encode reply hvalid rest, ?_⟩
  have hps := length_le_encodePushes ps
  obtain ⟨k, hk⟩ : ∃ k, (encodePushes ps ++ reply.encode ++ rest).length + 1 =
      reply.encode.length + k + 1 + ps.length := by
    refine ⟨(encodePushes ps).length + rest.length - ps.length, ?_⟩
    rw [length_append, length_append]
    omega
  unfold streamTo
  rw [hk, append_assoc, streamToLoop_pushes]
  by_cases hcopied : reply.copied = true
  · exact streamToLoop_copied hw block reply hcopied _ s rest (by omega)
  · rw [Bool.not_eq_true] at hcopied
    have hwhole := isWhole_of_scalar reply hscalar hcopied
    have hpush : reply.typ ≠ typePush := by
      intro h
      rw [h] at hwhole
      revert hwhole
      unfold isWhole
      decide
    obtain ⟨typ, hstep⟩ := streamToLoop_message w block reply hcopied hvalid
      (reply.encode.length + k) s rest
    rw [hstep, if_neg hpush]
    apply streamReply_delivers hw
    rwa [Wire.message, Wire.messageWith_typ]

end Streamed

def bufferWriter : BlockWriter Bytes Empty where
  write s b := (s ++ b, b.length, none)

theorem bufferWriter_accepts : bufferWriter.Accepts id := fun s b => ⟨s ++ b, rfl, rfl⟩

theorem streamTo_agrees_chunked :
    ∃ m, readNextMessage (lit "=?\r\n;4\r\ntxt:\r\n;2\r\nhi\r\n;0\r\n" ++ lit ":1\r\n") =
        (.ok m, lit ":1\r\n") ∧
      Delivers id [] m (lit ":1\r\n") (streamTo bufferWriter (fun _ => 1) []
        (lit ">1\r\n+x\r\n" ++ lit "=?\r\n;4\r\ntxt:\r\n;2\r\nhi\r\n;0\r\n" ++ lit ":1\r\n")) :=
  streamTo_agrees bufferWriter_accepts (fun _ => 1) []
    [⟨.aggregate .push false [.line .simpleString ⟨lit "x", by decide, by decide⟩],
      by simp [Wire.Valid, Wire.ValidElems, AggregateKind.isMap, maxMessages, maxAlloc], rfl⟩]
    (.chunked .verbatimString
      [⟨⟨lit "txt:", by decide⟩, by decide⟩, ⟨⟨lit "hi", by decide⟩, by decide⟩])
    (by simp [Wire.Valid]) rfl (lit ":1\r\n")

end Rueidis
