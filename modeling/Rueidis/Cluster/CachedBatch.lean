import Rueidis.Cluster.PickMulti
import Rueidis.Library.Machine
import Rueidis.Library.Threads

/-!
# A cached batch on a cluster, with its goroutines

`DoMultiCache` of the cluster client as a state machine, from `_pickMultiCache` on.
-/

namespace Rueidis

open Buckets

/-! ## Picking connections -/

namespace Picking

variable (p : Picking)

def destination (i : Nat) (cmd : Completed) : Except Panic (Option Nat) :=
  match p.rslots, p.sendToReplicas with
  | some rslots, some send =>
    match p.routeRead rslots send i cmd with
    | .error e => .error e
    | .ok r => .ok (r.map (·.1))
  | _, _ => p.write cmd.slot

def destinations : Nat → List CacheableTTL → Except Panic (Option (List Nat))
  | _, [] => .ok (some [])
  | i, cm :: rest =>
    match p.destination i cm.cmd with
    | .error e => .error e
    | .ok none => .ok none
    | .ok (some cc) =>
      match destinations (i + 1) rest with
      | .error e => .error e
      | .ok none => .ok none
      | .ok (some ccs) => .ok (some (cc :: ccs))

def fillCache (ccs : List Nat) (multi : List CacheableTTL) : Connretrycache :=
  { m := deliver Retrycache.push {} (ccs.dedup.map fun cc => (cc, {}))
      (ccs.zip (multi.zipIdx.map fun q => (q.2, q.1))) }

/-- `_pickMultiCache`; `none` when a slot has no connection. -/
def pickMultiCache (multi : List CacheableTTL) : Except Panic (Option Connretrycache) :=
  match p.destinations 0 multi with
  | .error e => .error e
  | .ok none => .ok none
  | .ok (some ccs) => .ok (some (fillCache ccs multi))

end Picking

/-! ## The machine -/

variable {multi : List CacheableTTL} {r : Connretrycache}

def Retrycache.indexes (re : Retrycache) (asking : Bool) : List Nat :=
  if asking then re.aIndexes else re.cIndexes

def Retrycache.cmds (re : Retrycache) (asking : Bool) : List CacheableTTL :=
  if asking then re.cAskings else re.commands

namespace CacheGoroutine

/-- Where a goroutine is: about to send the commands from `start` on, or at the reply `i`. -/
inductive Pc where
  | call (asking : Bool) (start : Nat) (got : List RedisResult)
  | handle (asking : Bool) (got : List RedisResult) (i : Nat)
  | done

def askings (re : Retrycache) : Pc := if re.cAskings.isEmpty then .done else .call true 0 []

def begin (re : Retrycache) : Pc := if re.commands.isEmpty then askings re else .call false 0 []

end CacheGoroutine

structure CacheGoroutine where
  cc : Nat
  re : Retrycache
  pc : CacheGoroutine.Pc

variable {g : CacheGoroutine}

def CacheGoroutine.isDone (g : CacheGoroutine) : Bool :=
  match g.pc with
  | .done => true
  | _ => false

theorem CacheGoroutine.isDone_iff : g.isDone = true ↔ g.pc = .done := by
  unfold isDone
  split
  · rename_i hpc
    exact ⟨fun _ => hpc, fun _ => rfl⟩
  · rename_i hpc
    exact ⟨fun h => (by cases h), fun h => absurd h hpc⟩

/-- The state of a call; `log` has the indexes that were sent, in order. -/
structure CacheState where
  retries : Connretrycache
  results : List RedisResult
  goroutines : List CacheGoroutine := []
  round : Nat := 0
  attempts : Nat := 1
  redirects : Nat := 0
  running : Bool := false
  returned : Bool := false
  log : List Nat := []

inductive CacheStep where
  | launch
  /-- The call of the goroutine `t` is answered.  Askings are sent again from the command `again` on
  when the connection has expired, which is told from the replies around those to the commands. -/
  | answer (t : Nat) (rs : List RedisResult) (again : Option Nat)
  | handle (t : Nat)
  | join (order : List (Nat × Retrycache))

namespace CacheState

open CacheGoroutine

variable (c : ClusterClient)

def start (multi : List CacheableTTL) (retries : Connretrycache) : CacheState :=
  { retries := retries, results := List.replicate multi.length {} }

def launch (s : CacheState) : Option CacheState :=
  if s.running || s.returned then none
  else some { s with
    goroutines := s.retries.m.map fun q => { cc := q.1, re := q.2, pc := begin q.2 }
    retries := { s.retries with m := [], retryDelay := -1 }
    running := true }

def answer (s : CacheState) (t : Nat) (rs : List RedisResult) (again : Option Nat) :
    Option CacheState :=
  match s.goroutines[t]? with
  | some ⟨cc, re, .call asking start got⟩ =>
    if rs.length = (re.cmds asking).length - start ∧ (again.isSome → c.hasLftm) then
      let got := got.take start ++ rs
      let expired := if c.hasLftm then got.findIdx? (·.isExpired) else none
      let pc :=
        match if asking then again else expired with
        | some start => .call asking start got
        | none => .handle asking got 0
      some { s with
        goroutines := s.goroutines.set t ⟨cc, re, pc⟩
        log := s.log ++ (re.indexes asking).drop start }
    else none
  | _ => none

/-- One turn of the loop of `resultcachefn`; a panic ends the program. -/
def handle (s : CacheState) (t : Nat) : Option CacheState :=
  match s.goroutines[t]? with
  | some ⟨cc, re, .handle asking got i⟩ =>
    match got[i]? with
    | none =>
      some { s with
        goroutines := s.goroutines.set t ⟨cc, re, if asking then .done else askings re⟩ }
    | some resp =>
      match resultcacheLoop (c.round asking s.round cc s.attempts false) (re.indexes asking)
        (re.cmds asking) i [resp] s.retries with
      | .ok (set, retries) => some { s with
          retries := retries
          results := ClusterClient.setResults s.results set
          goroutines := s.goroutines.set t ⟨cc, re, .handle asking got (i + 1)⟩ }
      | .error _ => none
  | _ => none

def join (s : CacheState) (order : List (Nat × Retrycache)) : Option CacheState :=
  if s.running && !s.returned && s.goroutines.all CacheGoroutine.isDone &&
      order.isPerm s.retries.m then
    match c.nextCache s.round { s.retries with m := order } s.attempts s.redirects with
    | some (retries, attempts, redirects) => some { s with
        retries := retries
        attempts := attempts
        redirects := redirects
        goroutines := []
        round := s.round + 1
        running := false }
    | none => some { s with returned := true }
  else none

def step (s : CacheState) : CacheStep → Option CacheState
  | .launch => s.launch
  | .answer t rs again => s.answer c t rs again
  | .handle t => s.handle c t
  | .join order => s.join c order

/-! ## What a step can do -/

inductive Taken (s : CacheState) : CacheStep → CacheState → Prop where
  | launch (hidle : s.running = false) (hopen : s.returned = false) :
      Taken s .launch { s with
        goroutines := s.retries.m.map fun q => { cc := q.1, re := q.2, pc := begin q.2 }
        retries := { s.retries with m := [], retryDelay := -1 }
        running := true }
  | answer {t cc start : Nat} {rs got : List RedisResult} {again : Option Nat} {re : Retrycache}
      {asking : Bool} {pc : Pc} (ht : s.goroutines[t]? = some ⟨cc, re, .call asking start got⟩)
      (hpc : (∃ start', pc = .call asking start' (got.take start ++ rs)) ∨
        pc = .handle asking (got.take start ++ rs) 0) :
      Taken s (.answer t rs again) { s with
        goroutines := s.goroutines.set t ⟨cc, re, pc⟩
        log := s.log ++ (re.indexes asking).drop start }
  | finished {t cc i : Nat} {re : Retrycache} {asking : Bool} {got : List RedisResult}
      (ht : s.goroutines[t]? = some ⟨cc, re, .handle asking got i⟩) (hgot : got[i]? = none) :
      Taken s (.handle t) { s with
        goroutines := s.goroutines.set t ⟨cc, re, if asking then .done else askings re⟩ }
  | handled {t cc i : Nat} {re : Retrycache} {asking : Bool} {got : List RedisResult}
      {resp : RedisResult} {set : List (Nat × RedisResult)} {retries : Connretrycache}
      (ht : s.goroutines[t]? = some ⟨cc, re, .handle asking got i⟩) (hgot : got[i]? = some resp)
      (hturn : resultcacheLoop (c.round asking s.round cc s.attempts false) (re.indexes asking)
        (re.cmds asking) i [resp] s.retries = .ok (set, retries)) :
      Taken s (.handle t) { s with
        retries := retries
        results := ClusterClient.setResults s.results set
        goroutines := s.goroutines.set t ⟨cc, re, .handle asking got (i + 1)⟩ }
  | again {order : List (Nat × Retrycache)} {retries : Connretrycache} {attempts redirects : Nat}
      (hopen : s.returned = false) (hdone : ∀ g ∈ s.goroutines, g.pc = .done)
      (hperm : order.Perm s.retries.m)
      (hnext : c.nextCache s.round { s.retries with m := order } s.attempts s.redirects =
        some (retries, attempts, redirects)) :
      Taken s (.join order) { s with
        retries := retries
        attempts := attempts
        redirects := redirects
        goroutines := []
        round := s.round + 1
        running := false }
  | returned {order : List (Nat × Retrycache)} (hdone : ∀ g ∈ s.goroutines, g.pc = .done)
      (hperm : order.Perm s.retries.m)
      (hnext : c.nextCache s.round { s.retries with m := order } s.attempts s.redirects = none) :
      Taken s (.join order) { s with returned := true }

variable {c} {s s' : CacheState} {t : Nat}

theorem taken_launch (h : s.launch = some s') : Taken c s .launch s' := by
  unfold CacheState.launch at h
  split at h
  · cases h
  · rename_i hidle
    rw [Bool.or_eq_true, not_or, Bool.not_eq_true, Bool.not_eq_true] at hidle
    rw [← Option.some.inj h]
    exact .launch hidle.1 hidle.2

theorem taken_answer {rs : List RedisResult} {again : Option Nat}
    (h : s.answer c t rs again = some s') : Taken c s (.answer t rs again) s' := by
  unfold CacheState.answer at h
  split at h
  · rename_i cc re asking start got ht
    dsimp only at h
    split at h
    · generalize (if asking = true then again else _) = start' at h
      rw [← Option.some.inj h]
      apply Taken.answer ht
      cases start' with
      | some start' => exact Or.inl ⟨start', rfl⟩
      | none => exact Or.inr rfl
    · cases h
  · cases h

theorem taken_handle (h : s.handle c t = some s') : Taken c s (.handle t) s' := by
  unfold CacheState.handle at h
  split at h
  · rename_i ht
    split at h
    · rename_i hgot
      rw [← Option.some.inj h]
      exact .finished ht hgot
    · rename_i hgot
      split at h
      · rename_i hturn
        rw [← Option.some.inj h]
        exact .handled ht hgot hturn
      · cases h
  · cases h

theorem taken_join {order : List (Nat × Retrycache)} (h : s.join c order = some s') :
    Taken c s (.join order) s' := by
  unfold CacheState.join at h
  split at h
  · rename_i hguard
    simp only [Bool.and_eq_true, Bool.not_eq_true', List.all_eq_true, List.isPerm_iff] at hguard
    obtain ⟨⟨⟨-, hopen⟩, hdone⟩, hperm⟩ := hguard
    have hpc : ∀ g ∈ s.goroutines, g.pc = .done := fun g hg => isDone_iff.mp (hdone g hg)
    split at h
    · rename_i hnext
      rw [← Option.some.inj h]
      exact .again hopen hpc hperm hnext
    · rename_i hnext
      rw [← Option.some.inj h]
      exact .returned hpc hperm hnext
  · cases h

theorem taken_of_step {a : CacheStep} (h : s.step c a = some s') : Taken c s a s' := by
  cases a with
  | launch => exact taken_launch h
  | answer t rs again => exact taken_answer h
  | handle t => exact taken_handle h
  | join order => exact taken_join h

end CacheState

/-! ## Buckets and indexes -/

namespace Retrycache

def indices (nr : Retrycache) : List Nat := nr.cIndexes ++ nr.aIndexes

variable {nr : Retrycache}

theorem Aligned.append (h : nr.Aligned) (mode : RedirectMode) (ii : Nat) (cm : CacheableTTL) :
    (nr.append mode ii cm).Aligned := by
  unfold Retrycache.append
  split
  · refine ⟨h.commands, ?_⟩
    rw [List.length_append, List.length_append, h.askings]
    rfl
  · refine ⟨?_, h.askings⟩
    rw [List.length_append, List.length_append, h.commands]
    rfl

theorem indices_append (nr : Retrycache) (mode : RedirectMode) (ii : Nat) (cm : CacheableTTL) :
    (nr.append mode ii cm).indices.Perm (nr.indices ++ [ii]) := by
  unfold Retrycache.append
  split
  · change (nr.cIndexes ++ (nr.aIndexes ++ [ii])).Perm _
    rw [← List.append_assoc]
    exact List.Perm.refl _
  · change ((nr.cIndexes ++ [ii]) ++ nr.aIndexes).Perm (nr.cIndexes ++ nr.aIndexes ++ [ii])
    rw [List.append_assoc, List.append_assoc]
    exact List.perm_append_comm.append_left _

theorem Aligned.map_fst_pairs (h : nr.Aligned) : nr.pairs.map (·.1) = nr.cIndexes :=
  List.map_fst_zip (Nat.le_of_eq h.commands)

end Retrycache

namespace Connretrycache

def indices (r : Connretrycache) : List Nat := content Retrycache.indices r.m

structure Good (r : Connretrycache) : Prop where
  keys : (keys r.m).Nodup
  aligned : ∀ q ∈ r.m, q.2.Aligned

variable {r : Connretrycache}

theorem Good.add (h : r.Good) (nc : Nat) (mode : RedirectMode) (ii : Nat) (cm : CacheableTTL)
    (delay : Int) : (r.add nc mode ii cm delay).Good := by
  have hbucket : (r.bucket nc).Aligned := good_getD h.aligned Retrycache.laws.good_empty nc
  constructor
  · exact nodup_put h.keys _ _
  · intro q hq
    rcases mem_put hq with rfl | hold
    · exact hbucket.append mode ii cm
    · exact h.aligned q hold

theorem Good.indices_add (h : r.Good) (nc : Nat) (mode : RedirectMode) (ii : Nat) (cm : CacheableTTL)
    (delay : Int) : (r.add nc mode ii cm delay).indices.Perm (r.indices ++ [ii]) := by
  apply content_put Retrycache.indices h.keys
  refine (Retrycache.indices_append _ mode ii cm).trans ?_
  unfold Connretrycache.bucket
  cases r.m.lookup nc with
  | none => exact List.Perm.refl _
  | some b => exact List.Perm.refl _

theorem Good.indices_perm (h : r.Good) :
    r.indices.Perm (r.pairs.map (·.1) ++ content (·.aIndexes) r.m) := by
  have hcommands : r.pairs.map (·.1) = content (·.cIndexes) r.m := by
    rw [Connretrycache.pairs, content, List.map_flatMap]
    exact List.flatMap_congr fun q hq => (h.aligned q hq).map_fst_pairs
  rw [hcommands]
  exact content_append _ _ _

end Connretrycache

namespace ClusterClient

variable {c : ClusterClient} {k : Nat} {retries : Connretrycache}

theorem good_rebucketRetriesCache (h : retries.Good) : (c.rebucketRetriesCache k retries).Good :=
  have hconserved := c.rebucketRetriesCache_conserved k h.keys h.aligned
  ⟨hconserved.keys, hconserved.good⟩

theorem indices_rebucketRetriesCache (h : retries.Good) :
    (c.rebucketRetriesCache k retries).indices.Perm retries.indices := by
  have hconserved := c.rebucketRetriesCache_conserved k h.keys h.aligned
  have hask : (content (fun nr => nr.aIndexes) (c.rebucketRetriesCache k retries).m).Perm
      (content (fun nr => nr.aIndexes) retries.m) :=
    hconserved.content_asks (f := fun p => p.1) h.keys rfl
  exact ((good_rebucketRetriesCache h).indices_perm.trans
    ((hconserved.content.map _).append hask)).trans h.indices_perm.symm

theorem nextCache_again (c : ClusterClient) (h : retries.Good) {attempts redirects : Nat}
    {next : Connretrycache × Nat × Nat}
    (hnext : c.nextCache k retries attempts redirects = some next) :
    next.1.Good ∧ next.1.indices.Perm retries.indices := by
  unfold ClusterClient.nextCache at hnext
  split at hnext
  · cases hnext
  · split at hnext
    · split at hnext
      · cases hnext
      · rw [← Option.some.inj hnext]
        exact ⟨⟨h.keys, h.aligned⟩, List.Perm.refl _⟩
    · split at hnext
      · rw [← Option.some.inj hnext]
        exact ⟨good_rebucketRetriesCache h, indices_rebucketRetriesCache h⟩
      · cases hnext

end ClusterClient

/-! ## Every index is in one place -/

namespace Picking

variable {p : Picking}

theorem length_destinations {i : Nat} {ccs : List Nat}
    (h : p.destinations i multi = .ok (some ccs)) : ccs.length = multi.length := by
  induction multi generalizing i ccs with
  | nil =>
    rw [← Option.some.inj (Except.ok.inj h)]
    rfl
  | cons cm multi ih =>
    rw [destinations] at h
    split at h
    · cases h
    · cases h
    · split at h
      · cases h
      · cases h
      · rename_i ccs' hrest
        rw [← Option.some.inj (Except.ok.inj h), List.length_cons, List.length_cons, ih hrest]

theorem good_fillCache (ccs : List Nat) (multi : List CacheableTTL) :
    (fillCache ccs multi).Good ∧ (content Retrycache.pairs (fillCache ccs multi).m).Perm
      ((ccs.zip (multi.zipIdx.map fun q => (q.2, q.1))).map (·.2)) ∧
    content (·.aIndexes) (fillCache ccs multi).m = [] := by
  have laws := Retrycache.laws
  have hkeys : (keys (ccs.dedup.map fun cc => (cc, ({} : Retrycache)))).Nodup := by
    rw [keys, List.map_map]
    simpa [Function.comp_def] using List.nodup_dedup ccs
  have hempty : ∀ q ∈ ccs.dedup.map fun cc => (cc, ({} : Retrycache)), q.2 = {} := by
    intro q hq
    obtain ⟨cc, -, rfl⟩ := List.mem_map.mp hq
    rfl
  have haligned : ∀ q ∈ ccs.dedup.map fun cc => (cc, ({} : Retrycache)), q.2.Aligned := by
    intro q hq
    rw [hempty q hq]
    exact laws.good_empty
  have hnil : ∀ {γ : Type} {f : Retrycache → List γ}, f {} = [] →
      content f (ccs.dedup.map fun cc => (cc, ({} : Retrycache))) = [] := by
    intro γ f hf
    apply List.flatMap_eq_nil_iff.mpr
    intro q hq
    rw [hempty q hq]
    exact hf
  have hgood : (fillCache ccs multi).Good :=
    ⟨nodup_deliver hkeys _,
      good_deliver laws.good_empty laws.good_push haligned _⟩
  refine ⟨hgood, ?_, ?_⟩
  · have hperm := content_deliver laws.good_empty laws.good_push laws.items_push
      laws.items_empty hkeys haligned (ccs.zip (multi.zipIdx.map fun q => (q.2, q.1)))
    rw [hnil laws.items_empty, List.nil_append] at hperm
    exact hperm
  · have hpush : ∀ nr q, (Retrycache.push nr q).aIndexes = nr.aIndexes := fun _ _ => rfl
    have hnone : ({} : Retrycache).aIndexes = [] := rfl
    have hask := content_perm_of_lookup hnone hkeys hgood.keys fun k =>
      project_deliver hpush {} _ _ k
    rw [hnil hnone] at hask
    exact hask.eq_nil

theorem pickMultiCache_good (h : p.pickMultiCache multi = .ok (some r)) :
    r.Good ∧ r.indices.Perm (List.range multi.length) := by
  unfold pickMultiCache at h
  split at h
  · cases h
  · cases h
  · rename_i ccs hccs
    rw [← Option.some.inj (Except.ok.inj h)]
    obtain ⟨hgood, hpairs, hask⟩ := good_fillCache ccs multi
    refine ⟨hgood, hgood.indices_perm.trans ?_⟩
    rw [hask, List.append_nil]
    refine (hpairs.map _).trans (List.Perm.of_eq ?_)
    have hlen : (multi.zipIdx.map fun q => (q.2, q.1)).length ≤ ccs.length := by
      rw [List.length_map, List.length_zipIdx, length_destinations hccs]
    rw [List.map_snd_zip hlen, List.map_map, List.range_eq_range']
    exact List.zipIdx_map_snd 0 multi

end Picking

namespace CacheGoroutine

def later (re : Retrycache) (asking : Bool) : List Nat := if asking then [] else re.aIndexes

def held (re : Retrycache) : Pc → List Nat
  | .call asking _ _ => re.indexes asking ++ later re asking
  | .handle asking _ i => (re.indexes asking).drop i ++ later re asking
  | .done => []

variable {re : Retrycache}

theorem held_askings (h : re.Aligned) : held re (askings re) = re.aIndexes := by
  unfold askings
  split
  · rename_i hempty
    have hlen := h.askings
    rw [List.isEmpty_iff.mp hempty, List.length_nil, List.length_eq_zero_iff] at hlen
    exact hlen.symm
  · exact List.append_nil _

theorem held_begin (h : re.Aligned) : held re (begin re) = re.indices := by
  unfold begin
  split
  · rename_i hempty
    have hlen := h.commands
    rw [List.isEmpty_iff.mp hempty, List.length_nil, List.length_eq_zero_iff] at hlen
    rw [held_askings h, Retrycache.indices, hlen, List.nil_append]
  · rfl

theorem held_finished_sublist (re : Retrycache) (asking : Bool) (got : List RedisResult) (i : Nat) :
    (held re (if asking then .done else askings re)).Sublist (held re (.handle asking got i)) := by
  cases asking with
  | true => exact List.nil_sublist _
  | false =>
    refine List.Sublist.trans ?_ (List.sublist_append_right _ _)
    change (held re (askings re)).Sublist re.aIndexes
    unfold askings
    split
    · exact List.nil_sublist _
    · change (re.aIndexes ++ []).Sublist re.aIndexes
      rw [List.append_nil]

end CacheGoroutine

theorem resultcacheLoop_one {rd : Round} {cIndexes : List Nat} {commands : List CacheableTTL}
    {i : Nat} {resp : RedisResult} {r' : Connretrycache} {set : List (Nat × RedisResult)}
    (h : resultcacheLoop rd cIndexes commands i [resp] r = .ok (set, r')) :
    ∃ ii cm addr mode, cIndexes[i]? = some ii ∧ commands[i]? = some cm ∧
      shouldRefreshRetry (rd.now i) resp.error = .ok (addr, mode) ∧
      (r' = r ∧ (mode = .retry → rd.retry = false) ∨
        ∃ nc delay, r' = r.add nc mode ii cm delay) := by
  unfold resultcacheLoop at h
  split at h
  · rename_i ii cm addr mode closing hii hcm hmode _
    refine ⟨ii, cm, addr, mode, hii, hcm, hmode, ?_⟩
    rw [← (Prod.mk.inj (Except.ok.inj h)).2]
    split
    · rename_i hskip
      refine Or.inl ⟨rfl, ?_⟩
      rintro rfl
      simpa using hskip
    · split
      · exact Or.inr ⟨_, _, rfl⟩
      · exact Or.inr ⟨_, _, rfl⟩
  · cases h
  · cases h
  · cases h

namespace CacheState

open CacheGoroutine

structure Inv (s : CacheState) : Prop where
  good : s.retries.Good
  nodup : (s.retries.indices ++ s.goroutines.flatMap fun g => held g.re g.pc).Nodup
  idle : s.running = false → s.goroutines = []

variable {s s' : CacheState} {c : ClusterClient} {t : Nat}

theorem Inv.running (h : Inv s) (hg : g ∈ s.goroutines) : s.running = true := by
  cases hr : s.running with
  | true => rfl
  | false =>
    rw [h.idle hr] at hg
    cases hg

theorem Inv.launch (h : Inv s) (hidle : s.running = false) :
    Inv { s with
      goroutines := s.retries.m.map fun q => { cc := q.1, re := q.2, pc := begin q.2 }
      retries := { s.retries with m := [], retryDelay := -1 }
      running := true } := by
  have hnodup := h.nodup
  rw [h.idle hidle, List.flatMap_nil, List.append_nil] at hnodup
  have hheld : ((s.retries.m.map fun q => (⟨q.1, q.2, begin q.2⟩ : CacheGoroutine)).flatMap
      fun g => held g.re g.pc) = s.retries.indices := by
    rw [List.flatMap_map]
    exact List.flatMap_congr fun q hq => held_begin (h.good.aligned q hq)
  refine ⟨⟨List.nodup_nil, List.forall_mem_nil _⟩, ?_, fun hr => by cases hr⟩
  change ([] ++ List.flatMap _ _).Nodup
  rw [List.nil_append, hheld]
  exact hnodup

theorem Inv.act (h : Inv s) {g' : CacheGoroutine} (ht : s.goroutines[t]? = some g)
    (hg : s'.goroutines = s.goroutines.set t g') (hr : s'.running = s.running)
    (hgood : s'.retries.Good) (hheld : (s'.retries.indices ++ held g'.re g'.pc).Subperm
      (s.retries.indices ++ held g.re g.pc)) : Inv s' := by
  refine ⟨hgood, ?_, ?_⟩
  · rw [hg]
    exact Threads.nodup_set ht hheld h.nodup
  · intro hidle
    rw [hr, h.running (List.mem_of_getElem? ht)] at hidle
    cases hidle

theorem Inv.step (h : Inv s) {a : CacheStep} (hstep : s.step c a = some s') : Inv s' := by
  cases taken_of_step hstep with
  | launch hidle => exact h.launch hidle
  | answer ht hpc =>
    refine h.act ht rfl rfl h.good ?_
    rcases hpc with ⟨start', rfl⟩ | rfl
    · exact List.Subperm.refl _
    · exact List.Subperm.refl _
  | @finished t cc i re asking got ht hgot =>
    refine h.act ht rfl rfl h.good ?_
    exact (List.Sublist.append_left (held_finished_sublist re asking got i) _).subperm
  | @handled t cc i re asking got resp set retries ht hgot hturn =>
    obtain ⟨ii, cm, addr, mode, hii, -, -, hadded⟩ := resultcacheLoop_one hturn
    obtain ⟨hlt, rfl⟩ := List.getElem?_eq_some_iff.mp hii
    have hheld : held re (.handle asking got i) =
        (re.indexes asking)[i] :: held re (.handle asking got (i + 1)) := by
      change (re.indexes asking).drop i ++ _ = _
      rw [List.drop_eq_getElem_cons hlt]
      rfl
    rcases hadded with ⟨rfl, -⟩ | ⟨nc, delay, rfl⟩
    · refine h.act ht rfl rfl h.good ?_
      rw [hheld]
      exact (List.Sublist.append_left (List.sublist_cons_self _ _) _).subperm
    · refine h.act ht rfl rfl (h.good.add nc mode _ cm delay) ?_
      rw [hheld]
      refine (((h.good.indices_add nc mode _ cm delay).append_right _).trans ?_).subperm
      rw [List.append_assoc]
      exact List.Perm.refl _
  | @again order retries attempts redirects _ hdone hperm hnext =>
    have hgood : ({ s.retries with m := order } : Connretrycache).Good :=
      ⟨nodup_keys_of_perm hperm h.good.keys,
        fun q hq => h.good.aligned q (hperm.mem_iff.mp hq)⟩
    obtain ⟨hgood', hindices⟩ := c.nextCache_again hgood hnext
    refine ⟨hgood', ?_, fun _ => rfl⟩
    change (retries.indices ++ []).Nodup
    have horder : (content Retrycache.indices order).Perm s.retries.indices :=
      hperm.flatMap_right _
    rw [List.append_nil, hindices.nodup_iff]
    exact horder.nodup_iff.mpr (List.nodup_append.mp h.nodup).1
  | returned => exact ⟨h.good, h.nodup, h.idle⟩

theorem inv_start {p : Picking} {retries : Connretrycache}
    (h : p.pickMultiCache multi = .ok (some retries)) : Inv (start multi retries) := by
  obtain ⟨hgood, hindices⟩ := Picking.pickMultiCache_good h
  refine ⟨hgood, ?_, fun _ => rfl⟩
  change (retries.indices ++ []).Nodup
  rw [List.append_nil, hindices.nodup_iff]
  exact List.nodup_range

end CacheState

end Rueidis
