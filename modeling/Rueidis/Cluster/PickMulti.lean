import Rueidis.Cluster.Rebucket
import Mathlib.Data.List.Dedup

/-!
# The connections of a batch

`_pickMulti` goes through a batch twice: to find out which connections get how many commands, and to
put the commands into the buckets of the connections.
-/

namespace Rueidis

open List Option Buckets

def panicMixCxSlot : Panic := ⟨"Mixing no-slot and cross slot commands in DoMulti is prohibited"⟩

/-- The slot tables and the options of the client.  What an option answers may differ from call to
call, and every command of the batch makes one call. -/
structure Picking where
  wslots : Nat → Option Nat
  rslots : Option (Nat → List (Option Nat))
  sendToReplicas : Option ((i : Nat) → Completed → Bool)
  readNodeSelector : Option ((i : Nat) → (slot : UInt16) → (nodes : List (Option Nat)) → Int)

namespace Picking

variable (p : Picking)

variable {count : List Nat} {input : List (Option Nat × Nat × Completed)} {cmds : List Completed}
  {init : Bool}

def write (slot : UInt16) : Except Panic (Option Nat) :=
  if slot.toNat < 16384 then .ok (p.wslots slot.toNat) else .error indexOutOfRange

def rIndex (i : Nat) (slot : UInt16) (nodes : List (Option Nat)) : Nat :=
  match p.readNodeSelector with
  | none => 0
  | some fn => if fn i slot nodes < 0 ∨ nodes.length ≤ fn i slot nodes then 0
      else (fn i slot nodes).toNat

/-! ## Reads from replicas -/

section Reads

variable (rslots : Nat → List (Option Nat)) (send : Nat → Completed → Bool)

/-- One command in the first pass: its connection, and the index of the node when it is read from a
replica, which is what the bitmap and `itor` keep. -/
def routeRead (i : Nat) (cmd : Completed) : Except Panic (Option (Nat × Option Nat)) :=
  if send i cmd then
    if cmd.slot.toNat < 16384 then
      let nodes := rslots cmd.slot.toNat
      let r := p.rIndex i cmd.slot nodes
      .ok (if 0 < nodes.length then (nodes.getD r none).map (·, some r) else none)
    else .error indexOutOfRange
  else
    match p.write cmd.slot with
    | .error e => .error e
    | .ok cc => .ok (cc.map (·, none))

def readPass : Nat → List Completed → Except Panic (Option (List (Nat × Option Nat)))
  | _, [] => .ok (some [])
  | i, cmd :: rest =>
    match p.routeRead rslots send i cmd with
    | .error e => .error e
    | .ok none => .ok none
    | .ok (some r) =>
      match readPass (i + 1) rest with
      | .error e => .error e
      | .ok none => .ok none
      | .ok (some rs) => .ok (some (r :: rs))

def readConn (mark : Option Nat) (cmd : Completed) : Option Nat :=
  match mark with
  | some r => (rslots cmd.slot.toNat).getD r none
  | none => p.wslots cmd.slot.toNat

end Reads

/-! ## Writes -/

structure WritePass where
  last : UInt16 := initSlot
  count : List Nat := []

def writePass (init : Bool) : List Completed → WritePass → Except Panic (Option WritePass)
  | [], w => .ok (some w)
  | cmd :: rest, w =>
    if cmd.slot = initSlot then writePass init rest w
    else if w.last ≠ initSlot ∧ init ∧ w.last ≠ cmd.slot then .error panicMixCxSlot
    else
      match p.write cmd.slot with
      | .error e => .error e
      | .ok none => .ok none
      | .ok (some cc) => writePass init rest {
          last := if w.last = initSlot then cmd.slot else w.last
          count := w.count ++ [cc] }

def anySlot : Option Nat := (List.range 16384).find? fun i => (p.wslots i).isSome

/-! ## Both -/

/-- `re.commands = append(re.commands, cmd)` with the bucket of the connection; a missing bucket is
a nil pointer. -/
def fill : Connretry → List (Option Nat × Nat × Completed) → Except Panic Connretry
  | r, [] => .ok r
  | r, (cc, i, cmd) :: rest =>
    match cc with
    | none => .error nilDereference
    | some cc =>
      match r.m.lookup cc with
      | none => .error nilDereference
      | some re => fill
          { r with m := (cc, re.append .none [i] [cmd]) :: r.m.filter (·.1 != cc) } rest

def buckets (count : List Nat) : Connretry := { m := count.dedup.map fun cc => (cc, {}) }

def hasInit (multi : List Completed) : Bool := multi.any fun cmd => cmd.slot == initSlot

def pickReads (rslots : Nat → List (Option Nat)) (send : Nat → Completed → Bool)
    (multi : List Completed) : Except Panic (Option Connretry) :=
  match p.readPass rslots send 0 multi with
  | .error e => .error e
  | .ok none => .ok none
  | .ok (some rs) =>
    match fill (buckets (rs.map (·.1))) ((multi.zipIdx.zip rs).map fun q =>
      (p.readConn rslots q.2.2 q.1.1, q.1.2, q.1.1)) with
    | .error e => .error e
    | .ok r => .ok (some r)

def pickWrites (multi : List Completed) : Except Panic (Option Connretry) :=
  match p.writePass (hasInit multi) multi {} with
  | .error e => .error e
  | .ok none => .ok none
  | .ok (some w) =>
    let home := if w.last = initSlot then p.anySlot else some w.last.toNat
    match home with
    | none => .ok none
    | some last =>
      let count := if w.last = initSlot ∨ hasInit multi then w.count ++ (p.wslots last).toList
        else w.count
      match fill (buckets count) (multi.zipIdx.map fun q =>
        (p.wslots (if q.1.slot = initSlot then last else q.1.slot.toNat), q.2, q.1)) with
      | .error e => .error e
      | .ok r => .ok (some r)

/-- `_pickMulti`; `none` when a slot has no connection. -/
def pickMulti (multi : List Completed) : Except Panic (Option (Connretry × Bool)) :=
  let picked :=
    match hasInit multi, p.rslots, p.sendToReplicas with
    | false, some rslots, some send => p.pickReads rslots send multi
    | _, _, _ => p.pickWrites multi
  match picked with
  | .error e => .error e
  | .ok none => .ok none
  | .ok (some r) => .ok (some (r, hasInit multi))

/-! ## The connection that is chosen -/

/-- The slot for commands without a key: that of the first command with one, or the first that is
served. -/
def home (multi : List Completed) : Option Nat :=
  match multi.find? fun cmd => cmd.slot != initSlot with
  | some cmd => some cmd.slot.toNat
  | none => p.anySlot

def chosenWrite (multi : List Completed) (cmd : Completed) : Option Nat :=
  if cmd.slot = initSlot then (p.home multi).bind p.wslots else p.wslots cmd.slot.toNat

def chosenRead (rslots : Nat → List (Option Nat)) (send : Nat → Completed → Bool) (i : Nat)
    (cmd : Completed) : Option Nat :=
  if send i cmd then
    (rslots cmd.slot.toNat).getD (p.rIndex i cmd.slot (rslots cmd.slot.toNat)) none
  else p.wslots cmd.slot.toNat

def chosen (multi : List Completed) (i : Nat) (cmd : Completed) : Option Nat :=
  match hasInit multi, p.rslots, p.sendToReplicas with
  | false, some rslots, some send => p.chosenRead rslots send i cmd
  | _, _, _ => p.chosenWrite multi cmd

/-! ## Filling -/

variable {r : Connretry} {multi : List Completed}

theorem fill_eq {r' : Connretry} (h : fill r input = .ok r') :
    ∃ moves : List (Nat × Nat × Completed), input = moves.map (fun q => (some q.1, q.2)) ∧
      r'.m = deliver Retry.push {} r.m moves := by
  induction input generalizing r with
  | nil =>
    rw [← Except.ok.inj h]
    exact ⟨[], rfl, rfl⟩
  | cons q input ih =>
    obtain ⟨cc, i, cmd⟩ := q
    cases cc with
    | none => cases h
    | some cc =>
      rw [fill] at h
      split at h
      · cases h
      next re hlookup =>
        obtain ⟨moves, hinput, hm⟩ := ih h
        refine ⟨(cc, i, cmd) :: moves, by rw [hinput]; rfl, ?_⟩
        rw [hm, deliver, deliver, foldl_cons, hlookup]
        rfl

theorem fill_ok (h : ∀ q ∈ input, ∃ cc, q.1 = some cc ∧ (r.m.lookup cc).isSome = true) :
    ∃ r', fill r input = .ok r' := by
  induction input generalizing r with
  | nil => exact ⟨r, rfl⟩
  | cons q input ih =>
    obtain ⟨cc, i, cmd⟩ := q
    rw [forall_mem_cons] at h
    obtain ⟨⟨cc', hcc, hsome⟩, hrest⟩ := h
    obtain rfl : cc = some cc' := hcc
    obtain ⟨re, hlookup⟩ := isSome_iff_exists.mp hsome
    rw [fill, hlookup]
    apply ih
    intro q' hq'
    obtain ⟨cc, hq, hthere⟩ := hrest q' hq'
    refine ⟨cc, hq, ?_⟩
    change ((put r.m cc' _).lookup cc).isSome = true
    by_cases heq : cc = cc'
    · rw [heq, lookup_put_self]
      rfl
    · rw [lookup_put_of_ne heq]
      exact hthere

theorem buckets_good (count : List Nat) : (keys (buckets count).m).Nodup ∧
    ∀ q ∈ (buckets count).m, q.2 = {} := by
  constructor
  · rw [Buckets.keys, buckets, List.map_map]
    simpa [Function.comp_def] using nodup_dedup count
  · intro q hq
    obtain ⟨cc, -, rfl⟩ := mem_map.mp hq
    rfl

theorem lookup_buckets {cc : Nat} (h : cc ∈ count) :
    ((buckets count).m.lookup cc).isSome = true := by
  have hmem : (cc, ({} : Retry)) ∈ (buckets count).m :=
    mem_map.mpr ⟨cc, mem_dedup.mpr h, rfl⟩
  rw [lookup_of_mem (buckets_good count).1 hmem]
  rfl

/-- What a pass leaves in the buckets: each connection gets the commands it was chosen for, in
order. -/
structure Filled (choose : Nat → Completed → Option Nat) (multi : List Completed) (r : Connretry) :
    Prop where
  keys : (keys r.m).Nodup
  aligned : ∀ q ∈ r.m, q.2.Aligned
  asks : ∀ q ∈ r.m, q.2.aIndexes = [] ∧ q.2.cAskings = []
  bucket : ∀ cc, (r.bucket cc).pairs =
    (multi.zipIdx.filter fun q => choose q.2 q.1 == some cc).map fun q => (q.2, q.1)
  content : r.pairs.Perm (multi.zipIdx.map fun q => (q.2, q.1))
  served : ∀ q ∈ multi.zipIdx, (choose q.2 q.1).isSome = true

theorem content_buckets (count : List Nat) : content Retry.pairs (buckets count).m = [] := by
  rw [content, flatMap_eq_nil_iff]
  intro q hq
  rw [(buckets_good count).2 q hq]
  rfl

theorem filled_of_fill {choose : Nat → Completed → Option Nat}
    (h : fill (buckets count) (multi.zipIdx.map fun q => (choose q.2 q.1, q.2, q.1)) = .ok r) :
    Filled choose multi r := by
  obtain ⟨moves, hmoves, hm⟩ := fill_eq h
  obtain ⟨hkeys, hempty⟩ := buckets_good count
  have laws := Retry.laws
  have hgood : ∀ q ∈ (buckets count).m, q.2.Aligned := fun q hq => hempty q hq ▸ laws.good_empty
  have hnone : ∀ cc, ((buckets count).m.lookup cc).getD {} = {} := by
    intro cc
    cases hb : (buckets count).m.lookup cc with
    | none => rfl
    | some re => exact hempty _ (mem_of_lookup hb)
  have hserved : ∀ q ∈ multi.zipIdx, (choose q.2 q.1).isSome = true := by
    intro q hq
    have hmem : (choose q.2 q.1, q.2, q.1) ∈ moves.map fun q => (some q.1, q.2) :=
      hmoves ▸ List.mem_map.mpr ⟨q, hq, rfl⟩
    obtain ⟨q', -, hq'⟩ := List.mem_map.mp hmem
    rw [← (Prod.mk.inj hq').1]
    rfl
  have hpairs : moves.map (·.2) = multi.zipIdx.map fun q => (q.2, q.1) := by
    have hsnd := congrArg (List.map (·.2)) hmoves
    rw [List.map_map, List.map_map] at hsnd
    exact hsnd.symm
  constructor
  · rw [hm]
    exact nodup_deliver hkeys moves
  · rw [hm]
    exact good_deliver laws.good_empty laws.good_push hgood moves
  · intro q hq
    have hlookup := lookup_of_mem (by rw [hm]; exact nodup_deliver hkeys moves) hq
    have hasks := project_deliver (f := fun nr : Retry => (nr.aIndexes, nr.cAskings))
      laws.asks_push {} (buckets count).m moves q.1
    rw [← hm, hlookup, Option.getD_some, hnone] at hasks
    exact Prod.mk.inj hasks
  · intro cc
    have hitems := items_deliver laws.good_empty laws.good_push laws.items_push hgood moves cc
    rw [hnone, ← hm] at hitems
    have hchosen := congrArg (fun l => (l.filter fun q => q.1 == some cc).map (·.2)) hmoves
    simp only [List.filter_map, List.map_map, Function.comp_def, Option.some_beq_some] at hchosen
    rw [Connretry.bucket, hitems]
    exact hchosen.symm
  · change (content Retry.pairs r.m).Perm _
    rw [hm, ← hpairs]
    have hperm := content_deliver laws.good_empty laws.good_push laws.items_push
      laws.items_empty hkeys hgood moves
    rw [content_buckets, List.nil_append] at hperm
    exact hperm
  · exact hserved

theorem exists_filled (choose : Nat → Completed → Option Nat)
    (h : ∀ q ∈ multi.zipIdx, ∃ cc ∈ count, choose q.2 q.1 = some cc) :
    ∃ r, fill (buckets count) (multi.zipIdx.map fun q => (choose q.2 q.1, q.2, q.1)) = .ok r ∧
      Filled choose multi r := by
  obtain ⟨r, hr⟩ : ∃ r, fill (buckets count)
      (multi.zipIdx.map fun q => (choose q.2 q.1, q.2, q.1)) = .ok r := by
    apply fill_ok
    intro q hq
    obtain ⟨q', hq', rfl⟩ := mem_map.mp hq
    obtain ⟨cc, hcc, hchosen⟩ := h q' hq'
    exact ⟨cc, hchosen, lookup_buckets hcc⟩
  exact ⟨r, hr, filled_of_fill hr⟩

/-! ## The passes -/

theorem write_eq {p : Picking} {slot : UInt16} {cc : Option Nat} (h : p.write slot = .ok cc) :
    p.wslots slot.toNat = cc := by
  unfold write at h
  split at h
  · exact Except.ok.inj h
  · cases h

section Reads

variable {p} {rslots : Nat → List (Option Nat)} {send : Nat → Completed → Bool}

theorem routeRead_eq {i : Nat} {cmd : Completed} {r : Nat × Option Nat}
    (h : p.routeRead rslots send i cmd = .ok (some r)) :
    p.readConn rslots r.2 cmd = some r.1 ∧ p.chosenRead rslots send i cmd = some r.1 := by
  unfold routeRead at h
  unfold chosenRead
  split at h
  next hsend =>
    rw [if_pos hsend]
    split at h <;> try cases h
    dsimp only at h
    split at h <;> try cases h
    obtain ⟨cc, hcc, rfl⟩ := map_eq_some_iff.mp (Except.ok.inj h)
    exact ⟨hcc, hcc⟩
  next hsend =>
    rw [if_neg hsend]
    split at h <;> try cases h
    next cc hwrite =>
    obtain ⟨cc', rfl, rfl⟩ := map_eq_some_iff.mp (Except.ok.inj h)
    exact ⟨write_eq hwrite, write_eq hwrite⟩

theorem readPass_eq {i : Nat} {rs : List (Nat × Option Nat)}
    (h : p.readPass rslots send i cmds = .ok (some rs)) :
    ((cmds.zipIdx i).zip rs).map (fun q => (p.readConn rslots q.2.2 q.1.1, q.1.2, q.1.1)) =
        (cmds.zipIdx i).map (fun q => (p.chosenRead rslots send q.2 q.1, q.2, q.1)) ∧
      ∀ q ∈ cmds.zipIdx i, ∃ cc ∈ rs.map (·.1), p.chosenRead rslots send q.2 q.1 = some cc := by
  induction cmds generalizing i rs with
  | nil => exact ⟨rfl, nofun⟩
  | cons cmd cmds ih =>
    rw [readPass] at h
    split at h <;> try cases h
    next r hroute =>
    split at h <;> cases h
    next hpass =>
    obtain ⟨hmap, hmem⟩ := ih hpass
    obtain ⟨hconn, hchosen⟩ := routeRead_eq hroute
    rw [zipIdx_cons, forall_mem_cons]
    refine ⟨?_, ⟨r.1, mem_cons_self, hchosen⟩, fun q hq => ?_⟩
    · rw [zip_cons_cons, map_cons, map_cons, hmap]
      rw [hconn, hchosen]
    · exact (hmem q hq).imp fun cc ⟨hcc, hq'⟩ => ⟨mem_cons_of_mem _ hcc, hq'⟩

theorem pickReads_filled : match p.pickReads rslots send multi with
    | .error e => p.readPass rslots send 0 multi = .error e
    | .ok none => True
    | .ok (some r) => Filled (p.chosenRead rslots send) multi r := by
  unfold pickReads
  cases hpass : p.readPass rslots send 0 multi with
  | error e => rfl
  | ok found =>
    cases found with
    | none => trivial
    | some rs =>
      obtain ⟨hmap, hmem⟩ := readPass_eq hpass
      obtain ⟨r, hr, hfilled⟩ := exists_filled _ hmem
      dsimp only
      rw [hmap, hr]
      exact hfilled

end Reads

section Writes

variable {p} {w : WritePass} {last : Nat}

/-- What the first pass has found out: the slot of the first key, and the connections of all
keys. -/
structure Passed (p : Picking) (cmds : List Completed) (w w' : WritePass) : Prop where
  last : w'.last = if w.last ≠ initSlot then w.last
    else ((cmds.find? fun cmd => cmd.slot != initSlot).map (·.slot)).getD initSlot
  mono : w.count ⊆ w'.count
  counted : ∀ cmd ∈ cmds, cmd.slot ≠ initSlot →
    ∃ cc ∈ w'.count, p.wslots cmd.slot.toNat = some cc

theorem writePass_passed {w' : WritePass} (h : p.writePass init cmds w = .ok (some w')) :
    Passed p cmds w w' := by
  induction cmds generalizing w with
  | nil =>
    obtain rfl : w = w' := some.inj (Except.ok.inj h)
    refine ⟨?_, Subset.refl _, nofun⟩
    split
    · rfl
    next hlast => exact not_not.mp hlast
  | cons cmd cmds ih =>
    rw [writePass] at h
    split at h
    next hinit =>
      obtain ⟨hlast, hmono, hcounted⟩ := ih h
      refine ⟨?_, hmono, forall_mem_cons.mpr ⟨fun hne => absurd hinit hne, hcounted⟩⟩
      rw [hlast, find?_cons_of_neg (by simpa using hinit)]
    next hkey =>
    split at h
    · cases h
    split at h <;> try cases h
    next cc hwrite =>
    obtain ⟨hlast, hmono, hcounted⟩ := ih h
    have hcc : cc ∈ w'.count := hmono (mem_append_right _ (mem_singleton_self cc))
    refine ⟨?_, fun cc' hcc' => hmono (mem_append_left _ hcc'),
      forall_mem_cons.mpr ⟨fun _ => ⟨cc, hcc, write_eq hwrite⟩, hcounted⟩⟩
    rw [hlast, find?_cons_of_pos (by simpa using hkey)]
    by_cases hw : w.last = initSlot
    · rw [if_pos hw, if_pos hkey, if_neg (not_not.mpr hw)]
      rfl
    · rw [if_neg hw, if_pos hw, if_pos hw]

theorem wslots_anySlot (h : p.anySlot = some last) : ∃ cc, p.wslots last = some cc := by
  have hsome := find?_some h
  exact isSome_iff_exists.mp hsome

theorem home_counted (h : Passed p multi {} w)
    (hlast : (if w.last = initSlot then p.anySlot else some w.last.toNat) = some last) :
    p.home multi = some last ∧ ∃ cc, p.wslots last = some cc ∧
      (w.last = initSlot ∨ cc ∈ w.count) := by
  have hw := h.last
  rw [if_neg (by simp : ¬ (({} : WritePass).last ≠ initSlot))] at hw
  unfold home
  cases hfind : multi.find? fun cmd => cmd.slot != initSlot with
  | none =>
    rw [hfind, map_none, getD_none] at hw
    rw [if_pos hw] at hlast
    obtain ⟨cc, hcc⟩ := wslots_anySlot hlast
    exact ⟨hlast, cc, hcc, Or.inl hw⟩
  | some cmd =>
    rw [hfind, map_some, getD_some] at hw
    have hkey : cmd.slot ≠ initSlot := by simpa using find?_some hfind
    rw [hw, if_neg hkey] at hlast
    obtain ⟨cc, hmem, hcc⟩ := h.counted cmd (mem_of_find?_eq_some hfind) hkey
    exact ⟨hlast, cc, some.inj hlast ▸ hcc, Or.inr hmem⟩

theorem pickWrites_filled : match p.pickWrites multi with
    | .error e => p.writePass (hasInit multi) multi {} = .error e
    | .ok none => True
    | .ok (some r) => Filled (fun _ cmd => p.chosenWrite multi cmd) multi r := by
  unfold pickWrites
  cases hpass : p.writePass (hasInit multi) multi {} with
  | error e => rfl
  | ok found =>
    cases found with
    | none => trivial
    | some w =>
      have hw := writePass_passed hpass
      dsimp only
      cases hlast : if w.last = initSlot then p.anySlot else some w.last.toNat with
      | none => trivial
      | some last =>
        obtain ⟨hhome, cc, hcc, hcounted⟩ := home_counted hw hlast
        have hchosen : (fun q : Completed × Nat =>
            (p.wslots (if q.1.slot = initSlot then last else q.1.slot.toNat), q.2, q.1)) =
            fun q => (p.chosenWrite multi q.1, q.2, q.1) := by
          funext q
          unfold chosenWrite
          rw [hhome]
          split <;> rfl
        dsimp only
        rw [hchosen]
        generalize hcount : (if w.last = initSlot ∨ hasInit multi = true then
          w.count ++ (p.wslots last).toList else w.count) = count
        have hmono : w.count ⊆ count := by
          rw [← hcount]
          split
          · exact subset_append_left _ _
          · exact Subset.refl _
        have hserved : ∀ q ∈ multi.zipIdx, ∃ cc ∈ count, p.chosenWrite multi q.1 = some cc := by
          intro q hq
          unfold chosenWrite
          by_cases hinit : q.1.slot = initSlot
          · rw [if_pos hinit, hhome]
            refine ⟨cc, ?_, hcc⟩
            rcases hcounted with hnone | hcounted
            · rw [← hcount, if_pos (Or.inl hnone), hcc]
              exact mem_append_right _ (mem_singleton_self cc)
            · exact hmono hcounted
          · rw [if_neg hinit]
            obtain ⟨cc', hcc', hslot⟩ := hw.counted q.1 (fst_mem_of_mem_zipIdx hq) hinit
            exact ⟨cc', hmono hcc', hslot⟩
        obtain ⟨r, hr, hfilled⟩ := exists_filled (fun _ => p.chosenWrite multi) hserved
        rw [hr]
        exact hfilled

end Writes

theorem pickMulti_filled (h : p.pickMulti multi = .ok (some (r, init))) :
    Filled (p.chosen multi) multi r := by
  unfold pickMulti at h
  dsimp only at h
  split at h <;> cases h
  next hpicked =>
  unfold chosen
  split at hpicked
  next rslots send _ _ _ =>
    have hreads := @pickReads_filled p multi rslots send
    rwa [hpicked] at hreads
  · have hwrites := @pickWrites_filled p multi
    rwa [hpicked] at hwrites

end Picking

end Rueidis
