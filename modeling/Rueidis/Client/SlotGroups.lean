import Rueidis.Cmds.Slot
import Rueidis.Commands
import Rueidis.Library.Buckets
import Rueidis.Message.Convert

/-!
# Multi-gets grouped by slot

`clusterMGet` and `clusterJsonMGet` of `helper.go`: one command for each slot, which gets its further
keys after it was built, and one map of the values from the replies.
-/

namespace Rueidis

open Cmds List

variable {args : List Bytes} {slots : List UInt16}

structure Recorded extends Completed where
  l : Int32
deriving DecidableEq, Repr

variable {cmds : List Recorded}

def Completed.build (c : Completed) : Recorded := ⟨c, Int32.ofNat c.commands.length⟩

def appendCompleted (c : Recorded) (s : Bytes) : Recorded :=
  { c with cs := { c.cs with s := c.cs.s ++ [s] }, l := c.l + 1 }

def keySlot (ks : UInt16) (key : Bytes) : Except Panic UInt16 :=
  if ks &&& noSlot = noSlot then .ok (noSlot ||| slot key)
  else if ks = initSlot ∨ ks = slot key then .ok (slot key)
  else .error ⟨"multi key command with different key slots are not allowed"⟩

/-- `Mget().Key(key).Build().Pin()`, or `Arbitrary("JSON.MGET").Keys(key).MultiGet().Pin()`. -/
def builtGet (token : Bytes) (ks : UInt16) (key : Bytes) : Except Panic Recorded :=
  (keySlot ks key).map fun ks =>
    Completed.build { cs := { s := [token, key], r := 1 }, cf := mtGetTag, ks := ks }

abbrev SlotGroups := List (UInt16 × Nat) × List Recorded

variable {g : SlotGroups}

def addKey (token : Bytes) (ks : UInt16) (g : SlotGroups) (key : Bytes) : Except Panic SlotGroups :=
  match g.1.lookup (slot key) with
  | none => (builtGet token ks key).map fun c => ((slot key, g.2.length) :: g.1, g.2 ++ [c])
  | some idx =>
    match g.2[idx]? with
    | none => .error indexOutOfRange
    | some c => .ok (g.1, g.2.set idx (appendCompleted c key))

def setValues : List Bytes → List RedisMessage → GoMap RedisMessage → Except Panic (GoMap RedisMessage)
  | _, [], ret => .ok ret
  | [], _ :: _, _ => .error indexOutOfRange
  | key :: keys, val :: arr, ret => setValues keys arr (ret.set key val)

def collect : List Recorded → List RedisResult → GoMap RedisMessage →
    Except Panic (Except Err (GoMap RedisMessage))
  | _, [], ret => .ok (.ok ret)
  | cmds, resp :: resps, ret =>
    match resp.toArray, cmds with
    | .error err, _ => .ok (.error err)
    | .ok _, [] => .error indexOutOfRange
    | .ok arr, c :: cmds => setValues c.commands.tail arr ret >>= collect cmds resps

/-- The common part of the two functions: what is sent, and what is returned.  `ks` is the slot of
`client.B()`, and `args` is what every command gets behind its keys. -/
def clusterGet (token : Bytes) (args : List Bytes) (ks : UInt16)
    (doMulti : List Recorded → List RedisResult) (keys : List Bytes) :
    List Recorded × Except Panic (Except Err (GoMap RedisMessage)) :=
  if keys.isEmpty then ([], .ok (.ok []))
  else match keys.foldlM (addKey token ks) ([], []) with
    | .error p => ([], .error p)
    | .ok (_, cmds) =>
      let cmds := cmds.map (args.foldl appendCompleted)
      (cmds, collect cmds (doMulti cmds) [])

def clusterMGet := clusterGet (lit "MGET") [] initSlot

def clusterJsonMGet (doMulti : List Recorded → List RedisResult) (keys : List Bytes) (path : Bytes) :=
  clusterGet (lit "JSON.MGET") [path] initSlot doMulti keys

/-! ## The commands -/

def slotGet (token : Bytes) (args keys : List Bytes) (s : UInt16) : Recorded :=
  Completed.build
    { cs := { s := token :: (keys.filter (slot · == s) ++ args), r := 1 }, cf := mtGetTag, ks := s }

variable {token : Bytes} {keys : List Bytes}

theorem appendCompleted_build (c : Completed) (s : Bytes) :
    appendCompleted c.build s = ({ c with cs.s := c.cs.s ++ [s] } : Completed).build := by
  simp [appendCompleted, Completed.build, Completed.commands, Int32.ofNat_add]

theorem appendArgs (args : List Bytes) (s : UInt16) :
    args.foldl appendCompleted (slotGet token [] keys s) = slotGet token args keys s := by
  suffices h : ∀ before, args.foldl appendCompleted (slotGet token before keys s) =
      slotGet token (before ++ args) keys s from h []
  induction args with
  | nil => simp
  | cons a args ih =>
    intro before
    rw [foldl_cons, slotGet, appendCompleted_build]
    simpa [slotGet] using ih (before ++ [a])

structure GroupsOf (token : Bytes) (keys : List Bytes) (slots : List UInt16) (g : SlotGroups) :
    Prop where
  nodup : slots.Nodup
  mem : ∀ s, s ∈ slots ↔ ∃ key ∈ keys, slot key = s
  index : ∀ s i, g.1.lookup s = some i ↔ slots[i]? = some s
  cmds : g.2 = slots.map (slotGet token [] keys)

theorem slotGet_snoc_of_ne {key : Bytes} {s : UInt16} (h : slot key ≠ s) :
    slotGet token [] (keys ++ [key]) s = slotGet token [] keys s := by
  simp [slotGet, filter_append, h]

theorem slotGet_snoc_self (key : Bytes) :
    slotGet token [] (keys ++ [key]) (slot key) =
      appendCompleted (slotGet token [] keys (slot key)) key := by
  rw [slotGet, slotGet, appendCompleted_build]
  simp [filter_append]

theorem GroupsOf.addKey (h : GroupsOf token keys slots g) (key : Bytes) :
    ∃ slots' g', Rueidis.addKey token initSlot g key = .ok g' ∧
      GroupsOf token (keys ++ [key]) slots' g' := by
  have hmem (s : UInt16) : (∃ k ∈ keys ++ [key], slot k = s) ↔ s ∈ slots ∨ slot key = s := by
    simp [h.mem s, or_and_right, exists_or]
  unfold Rueidis.addKey
  cases hidx : g.1.lookup (slot key) with
  | none =>
    -- the first key of its slot
    have hnew : slot key ∉ slots := fun hin => by
      obtain ⟨i, hi⟩ := getElem?_of_mem hin
      rw [(h.index _ i).mpr hi] at hidx
      cases hidx
    have hnone : keys.filter (slot · == slot key) = [] := by
      rw [filter_eq_nil_iff]
      intro k hk heq
      exact hnew ((h.mem _).mpr ⟨k, hk, by simpa using heq⟩)
    refine ⟨slots ++ [slot key], _, rfl, ?_, ?_, ?_, ?_⟩
    · exact h.nodup.append (nodup_singleton _) (by simpa using hnew)
    · intro s
      rw [hmem, mem_append, mem_singleton, eq_comm]
    · intro s i
      have hlen : g.2.length = slots.length := by rw [h.cmds, length_map]
      rw [lookup_cons, getElem?_append, hlen]
      by_cases hs : s = slot key
      · subst hs
        have hout : slots[i]? ≠ some (slot key) := fun hi => hnew (mem_of_getElem? hi)
        rw [beq_self_eq_true]
        grind
      · rw [beq_false_of_ne hs]
        have := h.index s i
        grind
    · have hold : slots.map (slotGet token [] (keys ++ [key])) = g.2 := by
        rw [h.cmds]
        exact map_congr_left fun s hs => slotGet_snoc_of_ne fun heq => hnew (heq ▸ hs)
      rw [map_append, hold, map_singleton, slotGet_snoc_self, slotGet, hnone,
        appendCompleted_build]
      rfl
  | some idx =>
    have hat := (h.index _ _).mp hidx
    have hin := mem_of_getElem? hat
    have hcmd : g.2[idx]? = some (slotGet token [] keys (slot key)) := by
      rw [h.cmds, getElem?_map, hat, Option.map_some]
    dsimp only
    rw [hcmd]
    refine ⟨slots, _, rfl, h.nodup, ?_, h.index, ?_⟩
    · intro s
      rw [hmem]
      exact ⟨.inl, fun hs => hs.elim id fun heq => heq ▸ hin⟩
    · -- no other command is for this slot
      apply ext_getElem?
      intro i
      rw [getElem?_set, h.cmds, length_map, getElem?_map, getElem?_map]
      by_cases hi : idx = i
      · subst hi
        rw [if_pos rfl, if_pos (List.getElem?_eq_some_iff.mp hat).1, hat, Option.map_some,
          slotGet_snoc_self]
      · rw [if_neg hi]
        refine Option.map_congr fun s hs => (slotGet_snoc_of_ne fun heq => hi ?_).symm
        subst heq
        have hsame := (h.index _ _).mpr hs
        exact Option.some.inj (hidx.symm.trans hsame)

theorem exists_groupsOf (token : Bytes) (keys : List Bytes) :
    ∃ slots g, keys.foldlM (addKey token initSlot) ([], []) = .ok g ∧ GroupsOf token keys slots g := by
  induction keys using reverseRecOn with
  | nil => exact ⟨[], _, rfl, nodup_nil, by simp, by simp, rfl⟩
  | append_singleton keys key ih =>
    obtain ⟨slots, g, hg, hgroups⟩ := ih
    obtain ⟨slots', g', hadd, hgroups'⟩ := hgroups.addKey key
    refine ⟨slots', g', ?_, hgroups'⟩
    rw [foldlM_append, hg]
    show (addKey token initSlot g key >>= pure) = .ok g'
    rw [hadd]
    rfl

/-! ## The values -/

/-- `v` is the value in the reply for the last time that the command has the key. -/
def ValueFor (c : Recorded) (r : RedisResult) (key : Bytes) (v : RedisMessage) : Prop :=
  ∃ arr, r.toArray = .ok arr ∧ ∃ j : Nat, c.commands.tail[j]? = some key ∧ arr[j]? = some v ∧
    ∀ j', j < j' → j' < arr.length → c.commands.tail[j']? ≠ some key

theorem setValues_spec {words : List Bytes} {arr : List RedisMessage} (h : arr.length ≤ words.length)
    (ret : GoMap RedisMessage) :
    ∃ ret', setValues words arr ret = .ok ret' ∧ ∀ key,
      (∃ v, ret'.lookup key = some v ∧ ∃ j : Nat, words[j]? = some key ∧ arr[j]? = some v ∧
        ∀ j', j < j' → j' < arr.length → words[j']? ≠ some key) ∨
      key ∉ words.take arr.length ∧ ret'.lookup key = ret.lookup key := by
  induction arr generalizing words ret with
  | nil => exact ⟨ret, by cases words <;> rfl, fun key => .inr ⟨by simp, rfl⟩⟩
  | cons val arr ih =>
    cases words with
    | nil => simp at h
    | cons word words =>
      obtain ⟨ret', hret', hspec⟩ := ih (Nat.le_of_succ_le_succ h) (ret.set word val)
      refine ⟨ret', hret', fun key => ?_⟩
      rcases hspec key with ⟨v, hv, j, hj, hval, hlast⟩ | ⟨hnot, hsame⟩
      · refine .inl ⟨v, hv, j + 1, hj, hval, ?_⟩
        rintro (_ | j') hlt hj'
        · omega
        · exact hlast j' (by omega) (by simpa using hj')
      · by_cases hkey : key = word
        · subst hkey
          refine .inl ⟨val, hsame.trans (Buckets.lookup_put_self ..), 0, rfl, rfl, ?_⟩
          rintro (_ | j') hlt hj' hat
          · omega
          · have hj' : j' < arr.length := by simpa using hj'
            exact hnot (mem_of_getElem? ((getElem?_take_of_lt hj').trans hat))
        · refine .inr ⟨?_, hsame.trans (Buckets.lookup_put_of_ne hkey ..)⟩
          simp [hkey, hnot]

def AnswersKeys (args : List Bytes) (c : Recorded) (r : RedisResult) : Prop :=
  ∃ arr, r.toArray = .ok arr ∧ c.commands.length = 1 + arr.length + args.length

theorem collect_spec {resps : List RedisResult} (h : Forall₂ (AnswersKeys args) cmds resps)
    (ret : GoMap RedisMessage) :
    ∃ ret', collect cmds resps ret = .ok (.ok ret') ∧ ∀ key,
      (∃ v, ret'.lookup key = some v ∧ ∃ q ∈ cmds.zip resps, ValueFor q.1 q.2 key v) ∨
      (∀ c ∈ cmds, key ∉ c.commands.tail.take (c.commands.length - 1 - args.length)) ∧
        ret'.lookup key = ret.lookup key := by
  induction h generalizing ret with
  | nil => exact ⟨ret, rfl, fun key => .inr ⟨by simp, rfl⟩⟩
  | @cons c r cmds resps hcr hrest ih =>
    obtain ⟨arr, harr, hlen⟩ := hcr
    have hfits : arr.length ≤ c.commands.tail.length := by
      rw [length_tail]
      omega
    obtain ⟨ret₁, hset, hfirst⟩ := setValues_spec hfits ret
    obtain ⟨ret', hcollect, hspec⟩ := ih ret₁
    refine ⟨ret', ?_, fun key => ?_⟩
    · unfold collect
      rw [harr]
      dsimp only
      rw [hset]
      exact hcollect
    · rcases hspec key with ⟨v, hv, q, hq, hval⟩ | ⟨hnot, hsame⟩
      · exact .inl ⟨v, hv, q, mem_cons_of_mem _ hq, hval⟩
      · rcases hfirst key with ⟨v, hv, hval⟩ | ⟨hnot', hsame'⟩
        · exact .inl ⟨v, hsame.trans hv, (c, r), mem_cons_self, arr, harr, hval⟩
        · refine .inr ⟨forall_mem_cons.mpr ⟨?_, hnot⟩, hsame.trans hsame'⟩
          rwa [show c.commands.length - 1 - args.length = arr.length by omega]

/-- One command for each slot of the keys, with the keys of the slot as they were requested, and the
length of its words. -/
def Grouped (token : Bytes) (args keys : List Bytes) (cmds : List Recorded) : Prop :=
  (cmds.map fun c => c.slot).Nodup ∧ (∀ key ∈ keys, ∃ c ∈ cmds, c.slot = slot key) ∧
    ∀ c ∈ cmds, keys.filter (slot · == c.slot) ≠ [] ∧
      c.commands = token :: (keys.filter (slot · == c.slot) ++ args) ∧
      c.l = Int32.ofNat c.commands.length ∧
      (c.commands.length < 2 ^ 31 → c.l.toInt = c.commands.length)

/-- What is sent is grouped, and when every command is answered by a value for each of its keys the
map has the value of every key and nothing else. -/
def GetsBySlot (token : Bytes) (args keys : List Bytes) (doMulti : List Recorded → List RedisResult)
    (out : List Recorded × Except Panic (Except Err (GoMap RedisMessage))) : Prop :=
  Grouped token args keys out.1 ∧
    (List.Forall₂ (AnswersKeys args) out.1 (doMulti out.1) → ∃ ret, out.2 = .ok (.ok ret) ∧
      ∀ key, (key ∉ keys → ret.lookup key = none) ∧ (key ∈ keys → ∃ v, ret.lookup key = some v ∧
        ∃ q ∈ out.1.zip (doMulti out.1), q.1.slot = slot key ∧ ValueFor q.1 q.2 key v))

theorem GroupsOf.grouped (h : GroupsOf token keys slots g) (args : List Bytes) :
    Grouped token args keys (slots.map (slotGet token args keys)) := by
  refine ⟨?_, fun key hkey => ?_, fun c hc => ?_⟩
  · rw [map_map]
    exact (map_id slots).symm ▸ h.nodup
  · exact ⟨_, mem_map_of_mem ((h.mem _).mpr ⟨key, hkey, rfl⟩), rfl⟩
  · obtain ⟨s, hs, rfl⟩ := mem_map.mp hc
    obtain ⟨key, hkey, hslot⟩ := (h.mem s).mp hs
    refine ⟨ne_nil_of_mem (mem_filter.mpr ⟨hkey, beq_iff_eq.mpr hslot⟩), rfl, rfl, ?_⟩
    intro hlt
    exact Int32.toInt_ofNat_of_lt hlt

theorem Grouped.mem_take (h : Grouped token args keys cmds) {c : Recorded} (hc : c ∈ cmds)
    (key : Bytes) :
    key ∈ c.commands.tail.take (c.commands.length - 1 - args.length) ↔
      key ∈ keys ∧ slot key = c.slot := by
  have hwords := (h.2.2 c hc).2.1
  have hlen : c.commands.length - 1 - args.length = (keys.filter (slot · == c.slot)).length := by
    rw [hwords, length_cons, length_append]
    omega
  rw [hlen, hwords, tail_cons, take_left, mem_filter, beq_iff_eq]

theorem clusterGet_getsBySlot (token : Bytes) (args keys : List Bytes)
    (doMulti : List Recorded → List RedisResult) :
    GetsBySlot token args keys doMulti (clusterGet token args initSlot doMulti keys) := by
  unfold clusterGet
  cases hkeys : keys.isEmpty with
  | true =>
    rw [isEmpty_iff.mp hkeys]
    exact ⟨⟨nodup_nil, by simp, by simp⟩, fun _ => ⟨[], rfl, by simp⟩⟩
  | false =>
    obtain ⟨slots, g, hg, h⟩ := exists_groupsOf token keys
    have hcmds : g.2.map (args.foldl appendCompleted) = slots.map (slotGet token args keys) := by
      rw [h.cmds, map_map]
      exact map_congr_left fun s _ => appendArgs args s
    rw [hg]
    simp only [hcmds, Bool.false_eq_true, if_false]
    have hgrouped := h.grouped args
    generalize slots.map (slotGet token args keys) = cmds at hgrouped
    refine ⟨hgrouped, fun hserved => ?_⟩
    obtain ⟨ret, hret, hspec⟩ := collect_spec hserved []
    refine ⟨ret, hret, fun key => ?_⟩
    rcases hspec key with ⟨v, hv, q, hq, hval⟩ | ⟨hnot, hnone⟩
    · have hin : key ∈ keys ∧ slot key = q.1.slot := by
        obtain ⟨arr, harr, j, hj, hat, -⟩ := hval
        obtain ⟨arr', harr', hlen⟩ := (forall₂_iff_zip.mp hserved).2 hq
        obtain rfl : arr = arr' := Except.ok.inj (harr.symm.trans harr')
        have hlt := (List.getElem?_eq_some_iff.mp hat).1
        apply (hgrouped.mem_take (of_mem_zip hq).1 key).mp
        rw [show q.1.commands.length - 1 - args.length = arr.length by omega]
        exact mem_of_getElem? ((getElem?_take_of_lt hlt).trans hj)
      exact ⟨fun hout => absurd hin.1 hout, fun _ => ⟨v, hv, q, hq, hin.2.symm, hval⟩⟩
    · refine ⟨fun _ => hnone, fun hin => ?_⟩
      obtain ⟨c, hc, hslot⟩ := hgrouped.2.1 key hin
      exact absurd ((hgrouped.mem_take hc key).mpr ⟨hin, hslot.symm⟩) (hnot c hc)

theorem gets_by_slot (doMulti : List Recorded → List RedisResult) (keys : List Bytes) (path : Bytes) :
    GetsBySlot (lit "MGET") [] keys doMulti (clusterMGet doMulti keys) ∧
      GetsBySlot (lit "JSON.MGET") [path] keys doMulti (clusterJsonMGet doMulti keys path) :=
  ⟨clusterGet_getsBySlot .., clusterGet_getsBySlot ..⟩

/-- A server that answers a command with its keys, where `n` words follow the keys. -/
def echoKeys (n : Nat) (cmds : List Recorded) : List RedisResult :=
  cmds.map fun c =>
    let keys := c.commands.tail.take (c.commands.length - 1 - n)
    newResult { typ := typeArray, array := some (keys.map fun w => { bytes := some w }) } none

theorem Grouped.echoed {token : Bytes} {keys : List Bytes} (h : Grouped token args keys cmds) :
    Forall₂ (AnswersKeys args) cmds (echoKeys args.length cmds) := by
  refine forall₂_map_right_iff.mpr (forall₂_same.mpr fun c hc => ⟨_, rfl, ?_⟩)
  rw [(h.2.2 c hc).2.1]
  simp only [newResult, RedisMessage.values, Option.getD_some, length_map, length_take, length_tail,
    length_cons, length_append]
  omega

theorem gets_by_slot_echoed :
    (∃ ret, (clusterMGet (echoKeys 0) [lit "a", lit "b", lit "a"]).2 = .ok (.ok ret) ∧
      (∃ v, ret.lookup (lit "a") = some v) ∧ ret.lookup (lit "c") = none) ∧
    ∃ ret, (clusterJsonMGet (echoKeys 1) [lit "a", lit "b"] (lit "$")).2 = .ok (.ok ret) ∧
      (∃ v, ret.lookup (lit "b") = some v) ∧ ret.lookup (lit "$") = none := by
  constructor
  · obtain ⟨hgrouped, hget⟩ :=
      (gets_by_slot (echoKeys 0) [lit "a", lit "b", lit "a"] (lit "$")).1
    obtain ⟨ret, hret, hspec⟩ := hget hgrouped.echoed
    obtain ⟨v, hv, -⟩ := (hspec (lit "a")).2 (by decide)
    exact ⟨ret, hret, ⟨v, hv⟩, (hspec (lit "c")).1 (by decide)⟩
  · obtain ⟨hgrouped, hget⟩ := (gets_by_slot (echoKeys 1) [lit "a", lit "b"] (lit "$")).2
    obtain ⟨ret, hret, hspec⟩ := hget hgrouped.echoed
    obtain ⟨v, hv, -⟩ := (hspec (lit "b")).2 (by decide)
    exact ⟨ret, hret, ⟨v, hv⟩, (hspec (lit "$")).1 (by decide)⟩

end Rueidis
