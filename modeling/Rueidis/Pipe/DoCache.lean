import Rueidis.Pipe.ReadLoop

/-!
# Cached calls on a connection

The caller asks the cache store for each key, sends the missing ones in a client side caching batch
and waits.  The replies are committed by the read loop; the caller only cancels what failed.
-/

namespace Rueidis

/-- What `Flight` reported for a key: a value, or an entry with the outcome of waiting for it, or
neither, which opens a flight. -/
structure Flown where
  v : RedisMessage := {}
  entry : Option (RedisMessage × Option Err) := none
deriving DecidableEq, Repr

def Flown.hit (f : Flown) : Bool := f.v.typ != 0

def Flown.missed (f : Flown) : Bool := !f.hit && f.entry.isNone

inductive Ending where
  | complete
  | failed (err : Err)
  | aborted (err : Err)
deriving DecidableEq, Repr

/-- What became of a batch: the replies that the read loop has read for it, and how the call
ended. -/
structure Served where
  replies : List (Env × RedisMessage)
  ending : Ending

def Served.waited (served : Served) : Bool :=
  match served.ending with
  | .aborted _ => false
  | _ => true

inductive Finish (α : Type) where
  | returned (a : α)
  | panicked (p : Panic)
  | waiting

section DoMulti

variable {σ : Type} (store : CacheStore σ)

def feed (st : ReadLoop σ) : List (Env × RedisMessage) → Turn σ
  | [] => ⟨.next, st, []⟩
  | (env, m) :: ms =>
    let t := dispatch store env st m []
    match t.flow with
    | .next =>
      let t' := feed t.st ms
      { t' with effects := t.effects ++ t'.effects }
    | _ => t

def resultAt (effs : List Effect) (i : Nat) : Option RedisResult :=
  effs.findSome? fun
    | .fulfill _ j resp => if j = i then some resp else none
    | _ => none

def resultsOf (n : Nat) (effs : List Effect) (missing : Err) : List RedisResult :=
  (List.range n).map fun i => (resultAt effs i).getD (newErrorResult (some missing))

def dueBatch (cache : Option σ) (cmds : List Completed) : ReadLoop σ :=
  { cache := cache, queue := [.multi cmds 0] }

/-- A batch that is led by the opt-in command always goes through the queue. -/
def doMulti (cache : Option σ) (cmds : List Completed) (served : Served) :
    List Effect × Finish (List RedisResult) :=
  let t := feed store (dueBatch cache cmds) served.replies
  match t.flow with
  | .panic p => (t.effects, .panicked p)
  | _ =>
    match served.ending with
    | .complete =>
      if served.replies.length = cmds.length then
        (t.effects, .returned (resultsOf cmds.length t.effects .closing))
      else (t.effects, .waiting)
    | .failed err => (t.effects, .returned (resultsOf cmds.length t.effects err))
    | .aborted err =>
      (t.effects, .returned (List.replicate cmds.length (newErrorResult (some err))))

end DoMulti

/-- A cached call: the keys it opened a flight for, the batch it sent for them, what it and the loop
did, and its result. -/
structure CacheCall (α : Type) where
  missed : List (Bytes × Bytes) := []
  sent : List Completed := []
  effects : List Effect := []
  finish : Finish α

def abortErr (err : Err) (queued : RedisResult) : Err :=
  if err.isRedisError then
    match queued.error with
    | some preErr => if preErr.isRedisError then preErr else .doCacheAborted
    | none => .doCacheAborted
  else err

def pttlCmd (key : Bytes) : Completed := newCompleted [lit "PTTL", key]

/-- `optInCmd` of a pipe: in BCAST and OPTOUT mode a command without effect takes its place. -/
def pipeOptInCmd (optIn : Bool) : Completed := if optIn then optInCmd else optInNopCmd

section DoCache

variable {σ : Type} (store : CacheStore σ) (optIn : Bool) (cache : σ)

/-- The static TTL path of `DoCache`: `[OPT_IN, cmd]`. -/
def doCacheStatic (cmd : Completed) (ck cc : Bytes) (served : Served) : CacheCall RedisResult :=
  let sent := [pipeOptInCmd optIn, cmd]
  match doMulti store (some cache) sent served with
  | (effs, .panicked p) => ⟨[(ck, cc)], sent, effs, .panicked p⟩
  | (effs, .waiting) => ⟨[(ck, cc)], sent, effs, .waiting⟩
  | (effs, .returned resps) =>
    let resp := resps.getD 1 {}
    match resp.err with
    | some err => ⟨[(ck, cc)], sent, effs ++ [.cacheCancel ck cc err], .returned resp⟩
    | none => ⟨[(ck, cc)], sent, effs, .returned resp⟩

/-- The standard path of `DoCache`: `[OPT_IN, MULTI, PTTL, cmd, EXEC]`. -/
def doCacheExec (cmd : Completed) (ck cc : Bytes) (served : Served) : CacheCall RedisResult :=
  let sent := [pipeOptInCmd optIn, multiCmd, pttlCmd ck, cmd, execCmd]
  match doMulti store (some cache) sent served with
  | (effs, .panicked p) => ⟨[(ck, cc)], sent, effs, .panicked p⟩
  | (effs, .waiting) => ⟨[(ck, cc)], sent, effs, .waiting⟩
  | (effs, .returned resps) =>
    match (resps.getD 4 {}).toArray with
    | .error err =>
      let err := abortErr err (resps.getD 3 {})
      ⟨[(ck, cc)], sent, effs ++ [.cacheCancel ck cc err],
        .returned (newErrorResult (some err))⟩
    | .ok exec =>
      match exec[1]? with
      | some m => ⟨[(ck, cc)], sent, effs, .returned (newResult m none)⟩
      | none => ⟨[(ck, cc)], sent, effs, .panicked indexOutOfRange⟩

def doCacheOne (cmd : Completed) (flown : Flown) (served : Served) : CacheCall RedisResult :=
  match cacheKey cmd with
  | .error p => { finish := .panicked p }
  | .ok (ck, cc) =>
    if flown.hit then { finish := .returned (newResult flown.v none) }
    else match flown.entry with
      | some (m, err) => { finish := .returned (newResult m err) }
      | none =>
        if cmd.isStaticTTL then doCacheStatic store optIn cache cmd ck cc served
        else doCacheExec store optIn cache cmd ck cc served

def arbitraryMultiGet : Panic := ⟨"Arbitrary.MultiGet is only valid for MGET and JSON.MGET"⟩

def multiGet (words : List Bytes) : Except Panic Completed :=
  if words.head? = some (lit "MGET") ∨ words.head? = some (lit "JSON.MGET") then
    .ok { cs := { s := words }, cf := mtGetTag }
  else .error arbitraryMultiGet

def sliceOutOfRange : Panic := ⟨"runtime error: slice bounds out of range"⟩

def isJSONMGet (commands : List Bytes) : Bool := (commands.headD []).head? == some 74

def mgetKeys (commands : List Bytes) : List Bytes :=
  if isJSONMGet commands then commands.tail.dropLast else commands.tail

/-- The values of the keys: the ones at hand and those of the awaited entries, or the error of a
wait.  The code waits in the order of a Go map; the model in the order of the keys. -/
def awaitEntries : List Flown → Except Err (List RedisMessage)
  | [] => .ok []
  | f :: fs =>
    if f.hit then (awaitEntries fs).map (f.v :: ·)
    else match f.entry with
      | some (_, some err) => .error err
      | some (m, none) => (awaitEntries fs).map (m :: ·)
      | none => (awaitEntries fs).map ({} :: ·)

def fillFirst {α : Type} (empty : α → Bool) (v : α) : List α → List α
  | [] => []
  | x :: xs => if empty x then v :: xs else x :: fillFirst empty v xs

def mgetResult (flown : List Flown) (partials : List RedisMessage) (allHit : Bool) : RedisResult :=
  match awaitEntries flown with
  | .error err => newErrorResult (some err)
  | .ok vals =>
    let vals := partials.foldl (fun xs v => fillFirst (·.typ == 0) v xs) vals
    newResult ({ typ := typeArray, attrs := if allHit then some cacheMark else none :
      RedisMessage }.setValues vals) none

def pttlKeyCmd (key : Bytes) : Completed := { pttlCmd key with cf := readonly }

def mgetBatch (keys : List Bytes) (rewritten : Completed) : List Completed :=
  [pipeOptInCmd optIn, multiCmd] ++ keys.map pttlKeyCmd ++ [rewritten, execCmd]

def missingKeys (cmd : Completed) (flown : List Flown) : List Bytes :=
  (((mgetKeys cmd.commands).zip flown).filter (·.2.missed)).map (·.1)

def fetchMissing (cmd : Completed) (flown : List Flown) (mgetcc : Bytes) (rewritten : Completed)
    (served : Served) : CacheCall RedisResult :=
  let missing := missingKeys cmd flown
  let missed := missing.map fun key => (key, mgetcc)
  let multi := mgetBatch optIn missing rewritten
  match doMulti store (some cache) multi served with
  | (effs, .panicked p) => ⟨missed, multi, effs, .panicked p⟩
  | (effs, .waiting) => ⟨missed, multi, effs, .waiting⟩
  | (effs, .returned resps) =>
    match (resps.getD (multi.length - 1) {}).toArray with
    | .error err =>
      let err := abortErr err (resps.getD (multi.length - 2) {})
      ⟨missed, multi, effs ++ missed.map (fun k => .cacheCancel k.1 k.2 err),
        .returned (newErrorResult (some err))⟩
    | .ok exec =>
      match exec.getLast? with
      | none => ⟨missed, multi, effs, .panicked indexOutOfRange⟩
      | some last =>
        if rewritten.commands.length = cmd.commands.length then
          ⟨missed, multi, effs, .returned (newResult last none)⟩
        else ⟨missed, multi, effs, .returned (mgetResult flown last.values false)⟩

def doCacheMGet (cmd : Completed) (flown : List Flown) (served : Served) : CacheCall RedisResult :=
  let commands := cmd.commands
  match mgetCacheCmd cmd with
  | .error p => { finish := .panicked p }
  | .ok mgetcc =>
    if isJSONMGet commands ∧ commands.length < 2 then { finish := .panicked sliceOutOfRange }
    else
      let missing := missingKeys cmd flown
      if missing = [] then { finish := .returned (mgetResult flown [] true) }
      else
        let path := if isJSONMGet commands then [commands.getLastD []] else []
        match multiGet (commands.headD [] :: missing ++ path) with
        | .error p => ⟨missing.map fun key => (key, mgetcc), [], [], .panicked p⟩
        | .ok rewritten => fetchMissing store optIn cache cmd flown mgetcc rewritten served

def doCache (cmd : Completed) (flown : List Flown) (served : Served) : CacheCall RedisResult :=
  if cmd.isMGet then doCacheMGet store optIn cache cmd flown served
  else doCacheOne store optIn cache cmd (flown.headD {}) served

def panicmgetcsc : Panic :=
  ⟨"MGET and JSON.MGET in DoMultiCache are not implemented, use DoCache instead"⟩

def strideOf (skipMultiExec : Bool) (ck : Bytes) (cmd : Completed) : List Completed :=
  if skipMultiExec then [pipeOptInCmd optIn, cmd]
  else [pipeOptInCmd optIn, multiCmd, pttlCmd ck, cmd.clearStaticTTL, execCmd]

structure Missing where
  ck : Bytes
  cc : Bytes
  cmd : Completed

def strides (skipMultiExec : Bool) (missing : List Missing) : List Completed :=
  missing.flatMap fun m => strideOf optIn skipMultiExec m.ck m.cmd

/-- The caller's part of settling: `resps` holds one stride for each missing key. -/
def cancelFailed (skipMultiExec : Bool) (resps : List RedisResult) (j : Nat) (m : Missing) :
    List Effect :=
  if skipMultiExec then
    match (resps.getD (2 * j + 1) {}).err with
    | some err => [.cacheCancel m.ck m.cc err]
    | none => []
  else
    match (resps.getD (5 * j + 4) {}).error with
    | some err => [.cacheCancel m.ck m.cc (abortErr err (resps.getD (5 * j + 3) {}))]
    | none => []

def strideResult (skipMultiExec : Bool) (resps : List RedisResult) (j : Nat) :
    Except Panic RedisResult :=
  if skipMultiExec then .ok (resps.getD (2 * j + 1) {})
  else
    match (resps.getD (5 * j + 4) {}).toArray with
    | .error err => .ok (newErrorResult (some (abortErr err (resps.getD (5 * j + 3) {}))))
    | .ok exec =>
      match exec.getLast? with
      | some m => .ok (newResult m none)
      | none => .error indexOutOfRange

def flownResult (f : Flown) : RedisResult :=
  if f.hit then newResult f.v none
  else match f.entry with
    | some (m, err) => newResult m err
    | none => {}

def RedisResult.isEmpty (r : RedisResult) : Bool := r.val.typ == 0 && r.err.isNone

/-- The missing keys; `CacheKey` panics on a script command with several keys. -/
def missingOf : List (Completed × Flown) → Except Panic (List Missing)
  | [] => .ok []
  | (cmd, f) :: rest =>
    match cacheKey cmd, missingOf rest with
    | .error p, _ => .error p
    | .ok _, .error p => .error p
    | .ok (ck, cc), .ok ms => .ok (if f.missed then ⟨ck, cc, cmd⟩ :: ms else ms)

def doMultiCache (multi : List (Completed × Flown)) (served : Served) :
    CacheCall (List RedisResult) :=
  if multi = [] then { finish := .panicked indexOutOfRange }
  else if multi.any (·.1.isMGet) then { finish := .panicked panicmgetcsc }
  else match missingOf multi with
    | .error p => { finish := .panicked p }
    | .ok missing =>
      let skipMultiExec := multi.all (·.1.isStaticTTL)
      let missed := missing.map fun m => (m.ck, m.cc)
      let slots := multi.map (flownResult ·.2)
      if missing = [] then { finish := .returned slots }
      else
        let sent := strides optIn skipMultiExec missing
        match doMulti store (some cache) sent served with
        | (effs, .panicked p) => ⟨missed, sent, effs, .panicked p⟩
        | (effs, .waiting) => ⟨missed, sent, effs, .waiting⟩
        | (effs, .returned resps) =>
          let cancels := missing.zipIdx.flatMap fun (m, j) => cancelFailed skipMultiExec resps j m
          match (List.range missing.length).mapM (strideResult skipMultiExec resps) with
          | .error p => ⟨missed, sent, effs ++ cancels, .panicked p⟩
          | .ok vals =>
            ⟨missed, sent, effs ++ cancels, .returned
              (vals.foldl (fun xs v => fillFirst RedisResult.isEmpty v xs) slots)⟩

end DoCache

end Rueidis
