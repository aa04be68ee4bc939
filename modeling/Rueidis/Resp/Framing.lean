import Rueidis.Library.ReaderRules
import Rueidis.Resp.Read

/-!
# Replies mark their own end

Whatever `readNextMessage` accepts, well formed or not, is decided by the bytes it has consumed: more
bytes behind them change nothing, and without the last of them it reports the end of the stream.
-/

namespace Rueidis

open List ByteReader Ends Extends Raises Delimited

open ByteReader (fail attempt peek bind_ok Settled Delimited Takes Extends Ends delimited_pure
  delimited_fail extends_refl extends_stop ends_pure ends_fail Raises raises_pure raises_fail)

def ReadErr.caught (e : ReadErr) : Prop := e = .errChunked ∨ e = .errOldNull

def ReadErr.short (e : ReadErr) : Prop := e = .eof ∨ e = .unexpectedEOF

theorem not_caught_of_short (e : ReadErr) (h : e.short) : ¬ e.caught := by
  rcases h with rfl | rfl <;> simp [ReadErr.caught]

abbrev Framed {α : Type} (x : RespReader α) : Prop := Delimited ReadErr.caught ReadErr.short x

/-! ## The readers of lines and texts -/

theorem framed_readByte : Framed readByte :=
  delimited_readByte (.inl rfl) not_caught_of_short

theorem framed_discard (n : Nat) : Framed (discard n) :=
  delimited_discard (.inl rfl) not_caught_of_short n

variable {e : ReadErr} {fuel n : Nat}

theorem framed_readFull (he : e.short) (n : Nat) : Framed (readFull .eof e n) :=
  delimited_readFull (.inl rfl) not_caught_of_short he n

theorem readS_eq : readS = (do
    let bs ← readBytes .eof 10
    if bs.length < 2 then fail (.new unexpectedNoCRLF) else return bs.take (bs.length - 2)) := by
  funext r
  unfold readS
  rw [bind_ok (show peek 2 r = _ from rfl), bind_ok (show peek 4 r = _ from rfl)]
  split
  next hpeek =>
    have hline : r = [79, 75, 13] ++ 10 :: r.drop 4 := by
      have h := (take_append_drop 4 r).symm
      rw [hpeek.2] at h
      exact h
    rw [hline, bind_ok (readBytes_append ReadErr.eof 10 [79, 75, 13] _ (by decide))]
    rfl
  · rfl

theorem framed_readS : Framed readS := by
  rw [readS_eq]
  refine bind (delimited_readBytes (.inl rfl) not_caught_of_short 10) ?_
  intro bs
  split
  · exact delimited_fail _
  · exact delimited_pure _

theorem framed_readI : Framed readI := by
  refine bind (delimited_readSlice (.inl rfl) not_caught_of_short
    (by simp [ReadErr.caught]) _ _) ?_
  intro bs
  cases parseI bs with
  | ok v => exact delimited_pure v
  | error e => exact delimited_fail e

theorem framed_makeSlice (limit : Nat) (length : Int64) : Framed (makeSlice limit length) := by
  unfold makeSlice
  split
  · exact delimited_pure _
  · exact delimited_fail _

theorem framed_readB : Framed readB := by
  refine framed_readI.bind fun length => ?_
  split
  · exact delimited_fail _
  · refine (framed_makeSlice _ _).bind fun n => ?_
    refine (framed_readFull (.inr rfl) n).bind fun bs => ?_
    exact (framed_discard 2).bind fun _ => delimited_pure bs

theorem framed_readChunks (fuel : Nat) (sb : Bytes) : Framed (readChunks fuel sb) := by
  induction fuel generalizing sb with
  | zero => exact delimited_fail _
  | succ fuel ih =>
    refine (framed_discard 1).bind fun _ => framed_readI.bind fun length => ?_
    split
    · exact delimited_pure sb
    split
    · exact delimited_fail _
    split
    · exact delimited_fail _
    · refine (framed_readFull (.inl rfl) _).bind fun chunk => ?_
      exact (framed_discard 2).bind fun _ => ih (sb ++ chunk)

theorem framed_readBlobString (fuel : Nat) : Framed (readBlobString fuel) := by
  refine attempt_bind not_caught_of_short framed_readB (fun o ho => ?_) fun e he => ?_
  · match o, ho with
    | .ok bs, _ => exact delimited_pure _
    | .error .errChunked, _ => exact (framed_readChunks fuel []).bind fun bs => delimited_pure _
    | .error .errOldNull, _ => exact delimited_fail _
  · cases e with
    | errChunked => exact absurd (.inl rfl) he
    | _ => rfl

/-! ## The table of readers -/

/-- The number of elements behind a length: a map has two for each, and one length is a null. -/
def ReaderFn.count : ReaderFn → Int64 → Option Int64
  | .array, n => if n = -1 then none else some n
  | .map, n => some (n * 2)
  | _, _ => none

def aggregateOf (fn : ReaderFn) (fuel : Nat) : RespReader RedisMessage := do
  match ← attempt readI with
  | .ok n =>
    match fn.count n with
    | some k => return ({} : RedisMessage).setValues (← readA fuel k)
    | none => fail .errOldNull
  | .error .errChunked => return ({} : RedisMessage).setValues (← readE fuel)
  | .error e => fail e

theorem readArray_eq (fuel : Nat) : readArray (fuel + 1) = aggregateOf .array fuel := by
  rw [readArray, aggregateOf]
  congr 1
  funext o
  cases o with
  | error e => cases e <;> rfl
  | ok n =>
    dsimp only [ReaderFn.count]
    split <;> rfl

theorem readMap_eq (fuel : Nat) : readMap (fuel + 1) = aggregateOf .map fuel := by
  rw [readMap, aggregateOf]
  rfl

section Run

variable {fuel : Nat} {array map : RespReader RedisMessage}

theorem framed_run (harray : Framed array) (hmap : Framed map) (fn : ReaderFn) :
    Framed (fn.run fuel array map) := by
  cases fn with
  | blobString => exact framed_readBlobString fuel
  | simpleString => exact framed_readS.bind fun bs => delimited_pure _
  | integer => exact framed_readI.bind fun v => delimited_pure _
  | null => exact (framed_discard 2).bind fun _ => delimited_pure _
  | boolean =>
    exact framed_readByte.bind fun b => (framed_discard 2).bind fun _ => delimited_pure _
  | array => exact harray
  | map => exact hmap

theorem framed_aggregateOf (hcounted : ∀ length, Framed (readA fuel length))
    (hstreamed : Framed (readE fuel)) (fn : ReaderFn) : Framed (aggregateOf fn fuel) := by
  refine attempt_bind not_caught_of_short framed_readI (fun o ho => ?_) fun e he => ?_
  · match o, ho with
    | .ok length, _ =>
      dsimp only
      split
      · exact (hcounted _).bind fun vs => delimited_pure _
      · exact delimited_fail _
    | .error .errChunked, _ => exact hstreamed.bind fun vs => delimited_pure _
    | .error .errOldNull, _ => exact delimited_fail _
  · cases e with
    | errChunked => exact absurd (.inl rfl) he
    | _ => rfl

end Run

structure AllFramed (fuel : Nat) : Prop where
  next : ∀ attrs, Framed (readNextLoop fuel attrs)
  array : Framed (readArray fuel)
  map : Framed (readMap fuel)
  streamed : Framed (readE fuel)
  counted : ∀ length, Framed (readA fuel length)
  msgs : ∀ n, Framed (readMsgs fuel n)

theorem allFramed (fuel : Nat) : AllFramed fuel := by
  induction fuel with
  | zero =>
    refine ⟨fun attrs => delimited_fail _, delimited_fail _, delimited_fail _, delimited_fail _,
      fun length => delimited_fail _, fun n => ?_⟩
    cases n with
    | zero => exact delimited_pure []
    | succ n => exact delimited_fail _
  | succ fuel ih =>
    constructor
    case next =>
      intro attrs
      rw [readNextLoop]
      refine framed_readByte.bind fun typ => ?_
      cases readers typ with
      | none => exact delimited_fail _
      | some fn =>
        refine attempt_bind not_caught_of_short (framed_run ih.array ih.map fn)
          (fun o ho => ?_) fun e he => ?_
        · cases o with
          | ok m =>
            dsimp only
            split
            · exact ih.next _
            · exact delimited_pure _
          | error e =>
            rcases ho with rfl | rfl
            · exact delimited_fail _
            · exact delimited_pure _
        · cases e with
          | errOldNull => exact absurd (.inr rfl) he
          | _ => rfl
    case array =>
      rw [readArray_eq]
      exact framed_aggregateOf ih.counted ih.streamed .array
    case map =>
      rw [readMap_eq]
      exact framed_aggregateOf ih.counted ih.streamed .map
    case streamed =>
      rw [readE]
      refine (ih.next none).bind fun n => ?_
      split
      · exact delimited_pure []
      · exact ih.streamed.bind fun vs => delimited_pure _
    case counted =>
      intro length
      rw [readA]
      exact (framed_makeSlice _ _).bind fun n => ih.msgs n
    case msgs =>
      intro n
      cases n <;> rw [readMsgs]
      case zero => exact delimited_pure []
      case succ n => exact (ih.next none).bind fun m => (ih.msgs n).bind fun vs => delimited_pure _

/-! ## More fuel changes nothing -/

abbrev Refuels {α : Type} (x y : RespReader α) : Prop := Extends ReadErr.outOfFuel x y

theorem refuels_readChunks (fuel : Nat) (sb : Bytes) :
    Refuels (readChunks fuel sb) (readChunks (fuel + 1) sb) := by
  induction fuel generalizing sb with
  | zero => exact extends_stop _
  | succ fuel ih =>
    rw [readChunks, readChunks]
    refine bind (extends_refl _) fun _ => bind (extends_refl _) fun length => ?_
    split
    · exact extends_refl _
    split
    · exact extends_refl _
    split
    · exact extends_refl _
    · refine bind (extends_refl _) fun chunk => ?_
      exact bind (extends_refl _) fun _ => ih (sb ++ chunk)

theorem refuels_readBlobString (fuel : Nat) :
    Refuels (readBlobString fuel) (readBlobString (fuel + 1)) := by
  refine attempt_bind (extends_refl _) (fun o => ?_) rfl
  cases o with
  | ok bs => exact extends_refl _
  | error e =>
    cases e with
    | errChunked => exact bind (refuels_readChunks fuel []) fun bs => extends_refl _
    | _ => exact extends_refl _

structure AllRefuel (fuel : Nat) : Prop where
  next : ∀ attrs, Refuels (readNextLoop fuel attrs) (readNextLoop (fuel + 1) attrs)
  array : Refuels (readArray fuel) (readArray (fuel + 1))
  map : Refuels (readMap fuel) (readMap (fuel + 1))
  streamed : Refuels (readE fuel) (readE (fuel + 1))
  counted : ∀ length, Refuels (readA fuel length) (readA (fuel + 1) length)
  msgs : ∀ n, Refuels (readMsgs fuel n) (readMsgs (fuel + 1) n)

theorem refuels_run (h : AllRefuel fuel) (fn : ReaderFn) :
    Refuels (fn.run fuel (readArray fuel) (readMap fuel))
      (fn.run (fuel + 1) (readArray (fuel + 1)) (readMap (fuel + 1))) := by
  cases fn with
  | blobString => exact refuels_readBlobString fuel
  | array => exact h.array
  | map => exact h.map
  | simpleString | integer | null | boolean => exact extends_refl _

theorem refuels_aggregateOf (h : AllRefuel fuel) (fn : ReaderFn) :
    Refuels (aggregateOf fn fuel) (aggregateOf fn (fuel + 1)) := by
  refine attempt_bind (extends_refl _) (fun o => ?_) rfl
  cases o with
  | ok length =>
    dsimp only
    split
    · exact bind (h.counted _) fun vs => extends_refl _
    · exact extends_refl _
  | error e =>
    cases e with
    | errChunked => exact bind h.streamed fun vs => extends_refl _
    | _ => exact extends_refl _

theorem allRefuel (fuel : Nat) : AllRefuel fuel := by
  induction fuel with
  | zero =>
    refine ⟨fun attrs => extends_stop _, extends_stop _, extends_stop _, extends_stop _,
      fun length => extends_stop _, fun n => ?_⟩
    cases n with
    | zero => exact extends_refl _
    | succ n => exact extends_stop _
  | succ fuel ih =>
    constructor
    case next =>
      intro attrs
      rw [readNextLoop, readNextLoop]
      refine bind (extends_refl _) fun typ => ?_
      cases readers typ with
      | none => exact extends_refl _
      | some fn =>
        refine attempt_bind (refuels_run ih fn) (fun o => ?_) rfl
        cases o with
        | ok m =>
          dsimp only
          split
          · exact ih.next _
          · exact extends_refl _
        | error e => cases e <;> exact extends_refl _
    case array =>
      rw [readArray_eq, readArray_eq]
      exact refuels_aggregateOf ih .array
    case map =>
      rw [readMap_eq, readMap_eq]
      exact refuels_aggregateOf ih .map
    case streamed =>
      rw [readE, readE]
      refine bind (ih.next none) fun n => ?_
      split
      · exact extends_refl _
      · exact bind ih.streamed fun vs => extends_refl _
    case counted =>
      intro length
      rw [readA, readA]
      exact bind (extends_refl _) fun n => ih.msgs n
    case msgs =>
      intro n
      cases n <;> rw [readMsgs, readMsgs]
      case zero => exact extends_refl _
      case succ n =>
        exact bind (ih.next none) fun m =>
          bind (ih.msgs n) fun vs => extends_refl _

/-! ## The fuel is enough -/

def ReadErr.Returned : ReadErr → Prop
  | .panic _ => False
  | .outOfFuel => False
  | _ => True

theorem accumulate_error {v : Int64} {bs : Bytes} (h : accumulate v bs = .error e) :
    ∃ text, e = .new text := by
  induction bs generalizing v with
  | nil => cases h
  | cons c cs ih =>
    rw [accumulate] at h
    split at h
    · exact ih h
    · cases h
      exact ⟨_, rfl⟩

theorem parseI_error {bs : Bytes} (h : parseI bs = .error e) :
    (∃ text, e = .new text) ∨ e = .errChunked ∧ ¬ bs.length < 3 ∧ bs.headD 0 = 63 := by
  have hmap : ∀ (ds : Bytes) (f : Int64 → Int64), (accumulate 0 ds).map f = .error e →
      ∃ text, e = .new text := by
    intro ds f hf
    cases hacc : accumulate 0 ds <;> rw [hacc] at hf <;> cases hf
    exact accumulate_error hacc
  unfold parseI at h
  split at h
  · cases h
    exact .inl ⟨_, rfl⟩
  next hlen =>
  split at h
  next hmark =>
    cases h
    exact .inr ⟨rfl, hlen, hmark⟩
  · split at h <;> exact .inl (hmap _ _ h)

theorem raises_parseI (bs : Bytes) (h : parseI bs = .error e) : e.Returned := by
  rcases parseI_error h with ⟨text, rfl⟩ | ⟨rfl, -⟩ <;> trivial

abbrev Returns {α : Type} (x : RespReader α) : Prop := Raises ReadErr.Returned x

theorem returns_readI : Returns readI := by
  refine bind (raises_readSlice trivial trivial _ _) fun bs => ?_
  cases h : parseI bs with
  | ok v => exact raises_pure v
  | error e => exact raises_fail (raises_parseI bs h)

theorem returns_readS : Returns readS := by
  rw [readS_eq]
  refine bind (raises_readBytes trivial 10) fun bs => ?_
  split
  · exact raises_fail trivial
  · exact raises_pure _

theorem returns_discard (n : Nat) : Returns (discard n) := raises_discard trivial n

theorem takes_readI : Takes ReadErr.caught 3 readI := by
  intro r o r' h hsettled
  unfold readI at h
  rcases hline : readSlice ReadErr.eof .bufferFull defaultReadBuffer 10 r with ⟨e | bs, r₁⟩
  · have hraises : Raises (fun e : ReadErr => ¬ e.caught)
        (readSlice .eof .bufferFull defaultReadBuffer 10) :=
      raises_readSlice (by simp [ReadErr.caught]) (by simp [ReadErr.caught]) _ _
    rw [bind_error hline] at h
    cases h
    exact absurd hsettled (hraises r e _ hline)
  · rw [bind_ok hline] at h
    by_cases hlen : bs.length < 3
    · -- too short for a number
      have hparse : parseI bs = .error (.new unexpectedNoCRLF) := if_pos hlen
      rw [hparse] at h
      cases h
      rcases hsettled with h | h <;> cases h
    · have hrest : r₁ = r' := by cases hp : parseI bs <;> rw [hp] at h <;> exact (Prod.mk.inj h).2
      rw [readSlice_eq_ok hline, hrest, length_append]
      omega

theorem takes_readByte : Takes ReadErr.caught 1 readByte :=
  framed_readByte.takes_one (by rintro (h | h) <;> cases h)

abbrev Fueled {α : Type} (n : Nat) (x : RespReader α) : Prop := Ends ReadErr.outOfFuel n x

theorem Returns.fueled {α : Type} {x : RespReader α} (h : Returns x) (n : Nat) : Fueled n x :=
  ends h id n

theorem fueled_makeSlice (n limit : Nat) (length : Int64) : Fueled n (makeSlice limit length) := by
  unfold makeSlice
  split
  · exact ends_pure n _
  · exact ends_fail nofun

theorem returns_readFull (he : e.short) (n : Nat) : Returns (readFull .eof e n) := by
  have hreturned : e.Returned := by rcases he with rfl | rfl <;> trivial
  exact raises_readFull trivial hreturned n

theorem returns_readByte : Returns readByte := raises_readByte trivial

theorem fueled_readB (n : Nat) : Fueled n readB := by
  refine bind (returns_readI.fueled n) takes_readI fun m hm length => ?_
  split
  · exact ends_fail nofun
  · refine bind (fueled_makeSlice m _ _) (framed_makeSlice _ _).takes fun m hm k => ?_
    refine bind ((returns_readFull (.inr rfl) k).fueled m) (framed_readFull (.inr rfl) k).takes
      fun m hm bs => ?_
    exact bind ((returns_discard 2).fueled m) (framed_discard 2).takes fun m hm _ => ends_pure m _

theorem fueled_readChunks (sb : Bytes) (hn : n < fuel) : Fueled n (readChunks fuel sb) := by
  induction fuel generalizing n sb with
  | zero => omega
  | succ fuel ih =>
    refine bind ((returns_discard 1).fueled n) (framed_discard 1).takes fun m hm _ => ?_
    refine bind (returns_readI.fueled m) takes_readI fun m' hm' length => ?_
    split
    · exact ends_pure _ _
    split
    · exact ends_fail nofun
    split
    · exact ends_fail nofun
    · refine bind ((returns_readFull (.inl rfl) _).fueled m') (framed_readFull (.inl rfl) _).takes
        fun k hk chunk => ?_
      exact bind ((returns_discard 2).fueled k) (framed_discard 2).takes
        fun k' hk' _ => ih _ (by omega)

theorem fueled_readBlobString (hn : n < fuel) : Fueled n (readBlobString fuel) := by
  refine attempt_bind (fueled_readB n) framed_readB.takes (fun m hm o ho => ?_) fun e he => ?_
  · match o, ho with
    | .ok bs, _ => exact ends_pure _ _
    | .error .errChunked, _ =>
      exact bind (fueled_readChunks [] (by omega)) (framed_readChunks _ _).takes
        fun m hm bs => ends_pure m _
    | .error .errOldNull, _ => exact ends_fail nofun
  · cases e with
    | errChunked => exact absurd (.inl rfl) he
    | _ => rfl

theorem takes_readNextLoop (fuel : Nat) (attrs : Option RedisMessage) :
    Takes ReadErr.caught 1 (readNextLoop fuel attrs) := by
  apply ((allFramed fuel).next attrs).takes_one
  cases fuel <;> rw [readNextLoop] <;> rintro (h | h) <;> cases h

/-- A message takes a byte and one unit, the header of an aggregate three bytes and two units. -/
structure AllFueled (fuel : Nat) : Prop where
  next : ∀ n attrs, n < fuel → Fueled n (readNextLoop fuel attrs)
  array : ∀ n, n < fuel → Fueled n (readArray fuel)
  map : ∀ n, n < fuel → Fueled n (readMap fuel)
  streamed : ∀ n, n + 1 < fuel → Fueled n (readE fuel)
  counted : ∀ n length, n + 2 < fuel → Fueled n (readA fuel length)
  msgs : ∀ n k, n + 1 < fuel → Fueled n (readMsgs fuel k)

theorem fueled_aggregateOf (h : AllFueled fuel) (hn : n ≤ fuel) (fn : ReaderFn) :
    Fueled n (aggregateOf fn fuel) := by
  refine attempt_bind (returns_readI.fueled n) takes_readI (fun m hm o ho => ?_) fun e he => ?_
  · match o, ho with
    | .ok length, _ =>
      dsimp only
      split
      · exact bind (h.counted m _ (by omega)) ((allFramed fuel).counted _).takes
          fun k hk vs => ends_pure k _
      · exact ends_fail nofun
    | .error .errChunked, _ =>
      exact bind (h.streamed m (by omega)) (allFramed fuel).streamed.takes
        fun k hk vs => ends_pure k _
    | .error .errOldNull, _ => exact ends_fail nofun
  · cases e with
    | errChunked => exact absurd (.inl rfl) he
    | _ => rfl

theorem returns_run {array map : RespReader RedisMessage} {fn : ReaderFn} (hblob : fn ≠ .blobString)
    (harray : fn ≠ .array) (hmap : fn ≠ .map) : Returns (fn.run fuel array map) := by
  cases fn with
  | blobString => exact absurd rfl hblob
  | array => exact absurd rfl harray
  | map => exact absurd rfl hmap
  | simpleString => exact bind returns_readS fun bs => raises_pure _
  | integer => exact bind returns_readI fun v => raises_pure _
  | null => exact bind (returns_discard 2) fun _ => raises_pure _
  | boolean =>
    exact bind returns_readByte fun b => bind (returns_discard 2) fun _ => raises_pure _

theorem fueled_run (h : AllFueled fuel) (hn : n < fuel) (fn : ReaderFn) :
    Fueled n (fn.run fuel (readArray fuel) (readMap fuel)) := by
  cases fn with
  | blobString => exact fueled_readBlobString hn
  | array => exact h.array n hn
  | map => exact h.map n hn
  | _ => exact Returns.fueled (returns_run (by nofun) (by nofun) (by nofun)) n

theorem allFueled (fuel : Nat) : AllFueled fuel := by
  induction fuel with
  | zero =>
    constructor <;> intros <;> omega
  | succ fuel ih =>
    have hnext : ∀ n, n < fuel → Fueled n (readNextLoop fuel none) := fun n hn => ih.next n none hn
    have hframed := allFramed fuel
    constructor
    case next =>
      intro n attrs hn
      rw [readNextLoop]
      refine bind (returns_readByte.fueled n) takes_readByte fun m hm typ => ?_
      cases readers typ with
      | none => exact ends_fail (by simp)
      | some fn =>
        refine attempt_bind (fueled_run ih (by omega) fn)
          (framed_run hframed.array hframed.map fn).takes (fun k hk o ho => ?_) fun e he => ?_
        · cases o with
          | ok x =>
            dsimp only
            split
            · exact ih.next k _ (by omega)
            · exact ends_pure _ _
          | error e =>
            rcases ho with rfl | rfl
            · exact ends_fail (by simp)
            · exact ends_pure _ _
        · cases e with
          | errOldNull => exact absurd (.inr rfl) he
          | _ => rfl
    case array =>
      intro n hn
      rw [readArray_eq]
      exact fueled_aggregateOf ih (by omega) .array
    case map =>
      intro n hn
      rw [readMap_eq]
      exact fueled_aggregateOf ih (by omega) .map
    case streamed =>
      intro n hn
      rw [readE]
      refine bind (hnext n (by omega)) (takes_readNextLoop fuel none) fun m hm x => ?_
      split
      · exact ends_pure _ _
      · exact bind (ih.streamed m (by omega)) hframed.streamed.takes fun k hk vs => ends_pure k _
    case counted =>
      intro n length hn
      rw [readA]
      exact bind (fueled_makeSlice n _ _) (framed_makeSlice _ _).takes
        fun m hm k => ih.msgs m k (by omega)
    case msgs =>
      intro n k hn
      cases k <;> rw [readMsgs]
      case zero => exact ends_pure _ _
      case succ k =>
        refine bind (hnext n (by omega)) (takes_readNextLoop fuel none) fun m hm x => ?_
        exact bind (ih.msgs m k (by omega)) (hframed.msgs k).takes fun i hi vs => ends_pure i _

/-! ## Whole messages -/

theorem readNextMessage_fueled (r : Bytes) : (readNextMessage r).1 ≠ .error .outOfFuel :=
  (allFueled _).next r.length none (Nat.lt_succ_self _) r (Nat.le_refl _)

theorem readNextLoop_eq {r : Bytes} (h : (readNextLoop fuel none r).1 ≠ .error .outOfFuel) :
    readNextLoop fuel none r = readNextMessage r :=
  eq_of_extends (x := fun n => readNextLoop n none) (fun n => (allRefuel n).next none) h
    (readNextMessage_fueled r)

theorem framed_readNextMessage : Framed readNextMessage := by
  intro r o r' h hsettled
  have hfueled := readNextMessage_fueled r
  rw [h] at hfueled
  obtain ⟨c, rfl, hmore, hless⟩ := (allFramed _).next none r o r' h hsettled
  refine ⟨c, rfl, fun s => ?_, fun p hp hne => ?_⟩
  · rw [← hmore s]
    exact (readNextLoop_eq (by rwa [hmore s])).symm
  · obtain ⟨e, s, hshort, hp⟩ := hless p hp hne
    refine ⟨e, s, hshort, ?_⟩
    rw [← hp]
    refine (readNextLoop_eq ?_).symm
    rw [hp]
    rcases hshort with rfl | rfl <;> nofun

/-- A message that is returned after `k` bytes is returned after `k` bytes whatever follows, and on
fewer of these bytes the reader reports that the connection has ended. -/
theorem readNextMessage_selfDelimiting (b r : Bytes) (m : RedisMessage)
    (h : readNextMessage b = (.ok m, r)) :
    ∃ k ≤ b.length, r = b.drop k ∧ (∀ s, readNextMessage (b ++ s) = (.ok m, b.drop k ++ s)) ∧
      ∀ j < k, ∃ e s, e.short ∧ readNextMessage (b.take j) = (.error e, s) := by
  obtain ⟨c, rfl, hmore, hless⟩ := framed_readNextMessage b _ r h trivial
  have hdrop : (c ++ r).drop c.length = r := drop_left
  refine ⟨c.length, by rw [length_append]; omega, hdrop.symm, fun s => ?_, fun j hj => ?_⟩
  · rw [hdrop, append_assoc]
    exact hmore (r ++ s)
  · have htake : (c ++ r).take j = c.take j := by
      rw [take_append_of_le_length (by omega)]
    rw [htake]
    apply hless _ (List.take_prefix j c)
    intro hsame
    have hlen := congrArg length hsame
    rw [length_take] at hlen
    omega

/-- A simple string that ends without a carriage return is accepted, with its last byte lost. -/
theorem readNextMessage_selfDelimiting_bare :
    ∃ k ≤ 5, (∀ s, readNextMessage (lit "+abc\n" ++ s) =
        (.ok { typ := typeSimpleString, bytes := some (lit "ab"), intlen := 2 },
          (lit "+abc\n").drop k ++ s)) ∧
      ∀ j < k, ∃ e s, e.short ∧ readNextMessage ((lit "+abc\n").take j) = (.error e, s) := by
  have hread : readNextMessage (lit "+abc\n") =
      (.ok { typ := typeSimpleString, bytes := some (lit "ab"), intlen := 2 }, []) := by decide
  obtain ⟨k, hk, -, hmore, hless⟩ := readNextMessage_selfDelimiting _ _ _ hread
  exact ⟨k, hk, hmore, hless⟩

end Rueidis
