import Rueidis.Message

/-! Commands: their flags, the predefined ones, and the keys of the client side cache. -/

namespace Rueidis

/-- The container of a command's words; `r` is non-zero for a pinned command. -/
structure CommandSlice where
  s : List Bytes := []
  r : Int32 := 0
deriving DecidableEq, Repr, Inhabited

/-- A completed command with its flags `cf` and its key slot `ks`. -/
structure Completed where
  cs : CommandSlice := {}
  cf : UInt16 := 0
  ks : UInt16 := 0
deriving DecidableEq, Repr, Inhabited

/-! ## Flags -/

def optInTag : UInt16 := (1 : UInt16) <<< 15
def blockTag : UInt16 := (1 : UInt16) <<< 14
def retryableTag : UInt16 := (1 : UInt16) <<< 7
def pipeTag : UInt16 := (1 : UInt16) <<< 8
def readonly : UInt16 := (1 : UInt16) <<< 13 ||| retryableTag
def noRetTag : UInt16 := (1 : UInt16) <<< 12 ||| readonly ||| pipeTag
def mtGetTag : UInt16 := (1 : UInt16) <<< 11 ||| readonly
def scrRoTag : UInt16 := (1 : UInt16) <<< 10 ||| readonly
def unsubTag : UInt16 := (1 : UInt16) <<< 9 ||| noRetTag
def staticTTLTag : UInt16 := (1 : UInt16) <<< 6
def unblockTag : UInt16 := (1 : UInt16) <<< 5

def initSlot : UInt16 := (1 : UInt16) <<< 14
def noSlot : UInt16 := (1 : UInt16) <<< 15

namespace Completed

def has (c : Completed) (tag : UInt16) : Bool := c.cf &&& tag == tag

def isOptIn (c : Completed) : Bool := c.has optInTag
def isStaticTTL (c : Completed) : Bool := c.has staticTTLTag
def isBlock (c : Completed) : Bool := c.has blockTag
def isUnblockOnCancel (c : Completed) : Bool := c.has unblockTag
def noReply (c : Completed) : Bool := c.has noRetTag
def isUnsub (c : Completed) : Bool := c.has unsubTag
def isRetryable (c : Completed) : Bool := c.has retryableTag
def isMGet (c : Completed) : Bool := c.has mtGetTag

def commands (c : Completed) : List Bytes := c.cs.s
def slot (c : Completed) : UInt16 := c.ks

def clearStaticTTL (c : Completed) : Completed := { c with cf := c.cf &&& ~~~staticTTLTag }

end Completed

theorem noReply_of_isUnsub {c : Completed} (h : c.isUnsub = true) : c.noReply = true := by
  unfold Completed.isUnsub Completed.has at h
  rw [beq_iff_eq] at h
  unfold Completed.noReply Completed.has
  rw [beq_iff_eq]
  have hsub : unsubTag &&& noRetTag = noRetTag := by decide
  calc c.cf &&& noRetTag = c.cf &&& unsubTag &&& noRetTag := by rw [UInt16.and_assoc, hsub]
    _ = noRetTag := by rw [h, hsub]

theorem has_clearStaticTTL {tag : UInt16} (htag : ~~~staticTTLTag &&& tag = tag) (c : Completed) :
    c.clearStaticTTL.has tag = c.has tag := by
  unfold Completed.has Completed.clearStaticTTL
  rw [UInt16.and_assoc, htag]

/-! ## Predefined commands -/

def newCompleted (ss : List Bytes) : Completed := { cs := { s := ss } }

theorem newCompleted_has {tag : UInt16} (htag : tag ≠ 0) (ss : List Bytes) :
    (newCompleted ss).has tag = false := by
  unfold Completed.has newCompleted
  rw [UInt16.zero_and]
  exact beq_eq_false_iff_ne.mpr htag.symm

def optInCmd : Completed :=
  { newCompleted [lit "CLIENT", lit "CACHING", lit "YES"] with cf := optInTag }

/-- The stand-in for `CLIENT CACHING YES` in BCAST and OPTOUT mode. -/
def optInNopCmd : Completed := { newCompleted [lit "ECHO", lit ""] with cf := optInTag }

def multiCmd : Completed := newCompleted [lit "MULTI"]
def execCmd : Completed := newCompleted [lit "EXEC"]
def askingCmd : Completed := newCompleted [lit "ASKING"]
def pingCmd : Completed := newCompleted [lit "PING"]

def isMulti (cmd : Completed) : Bool := cmd.commands == [lit "MULTI"]
def isExec (cmd : Completed) : Bool := cmd.commands == [lit "EXEC"]

theorem isExec_eq_false_of_isMulti {cmd : Completed} (h : isMulti cmd = true) :
    isExec cmd = false := by
  unfold isMulti at h
  rw [beq_iff_eq] at h
  unfold isExec
  rw [h]
  decide

/-! ## Cache keys -/

def putUvarint : Nat → Nat → Bytes
  | 0, _ => []
  | fuel + 1, n =>
    if n < 0x80 then [n.toUInt8] else (n % 0x80 + 0x80).toUInt8 :: putUvarint fuel (n / 0x80)

def appendCachePart (s : Bytes) : Bytes := putUvarint 10 s.length ++ s

/-- The key and the cache command of a cacheable command; the key word is left out of the latter.
A command shorter than its key position has an empty key. -/
def cacheKey (c : Completed) : Except Panic (Bytes × Bytes) :=
  match c.cs.s with
  | [cmd, key] => .ok (key, cmd)
  | words =>
    if c.has scrRoTag then
      match words[2]? with
      | none => .error indexOutOfRange
      | some numkeys =>
        if numkeys = lit "1" then .ok (keyed 3 words)
        else .error ⟨"client side caching for scripting only supports numkeys=1"⟩
    else .ok (keyed 1 words)
where
  keyed (kp : Nat) (words : List Bytes) : Bytes × Bytes :=
    (words.getD kp [], (words.eraseIdx kp).flatMap appendCachePart)

theorem cacheKey_clearStaticTTL (c : Completed) : cacheKey c.clearStaticTTL = cacheKey c := by
  unfold cacheKey
  rw [has_clearStaticTTL (by decide)]
  rfl

def mgetCacheCmd (c : Completed) : Except Panic Bytes :=
  match c.cs.s with
  | (74 :: _) :: _ =>
    .ok (appendCachePart (lit "JSON.GET") ++ appendCachePart (c.cs.s.getLastD []))
  | (_ :: _) :: _ => .ok (lit "GET")
  | _ => .error indexOutOfRange

def mgetCacheKey (c : Completed) (i : Nat) : Except Panic Bytes :=
  match c.cs.s[i + 1]? with
  | some key => .ok key
  | none => .error indexOutOfRange

end Rueidis
