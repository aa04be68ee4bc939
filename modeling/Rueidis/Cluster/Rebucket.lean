import Rueidis.Cluster.Cached
import Rueidis.Library.Buckets

/-!
# Other nodes for what is tried again

`rebucketRetries` and `rebucketRetriesCache` ask for a node again for every command that is tried
again, and move those whose node has changed.  Commands are cut into runs, which are transactions or
single commands, and each run is kept or moved as a whole.
-/

namespace Rueidis

open List Buckets

/-! ## Buckets of commands -/

variable {fuel : Nat} {retries : Connretry}

section Parallel

variable {is : List Nat} {γ : Type} {cs : List γ}

theorem length_snoc (h : is.length = cs.length) (i : Nat) (c : γ) :
    (is ++ [i]).length = (cs ++ [c]).length := by
  rw [length_append, length_append, h]
  rfl

theorem zip_snoc (h : is.length = cs.length) (p : Nat × γ) :
    (is ++ [p.1]).zip (cs ++ [p.2]) = is.zip cs ++ [p] := by
  rw [zip_append h]
  rfl

theorem zip_fst_snd (xs : List (Nat × γ)) : (xs.map (·.1)).zip (xs.map (·.2)) = xs := by
  rw [zip_map', map_id']

theorem asks_of_drained {as : List Nat} (hlen : as.length = cs.length)
    (h : (is.isEmpty && cs.isEmpty) = true) : (as, cs) = ([], []) := by
  rw [Bool.and_eq_true, List.isEmpty_iff, List.isEmpty_iff] at h
  rw [h.2, List.length_nil, List.length_eq_zero_iff] at hlen
  rw [hlen, h.2]

theorem zip_of_drained {ds : List γ} (h : (is.isEmpty && ds.isEmpty) = true) : is.zip cs = [] := by
  rw [Bool.and_eq_true, List.isEmpty_iff] at h
  rw [h.1, List.zip_nil_left]

end Parallel

namespace Retry

def pairs (nr : Retry) : List (Nat × Completed) := nr.cIndexes.zip nr.commands

structure Aligned (nr : Retry) : Prop where
  commands : nr.cIndexes.length = nr.commands.length
  askings : nr.aIndexes.length = nr.cAskings.length

def refill (nr : Retry) (xs : List (Nat × Completed)) : Retry :=
  { nr with cIndexes := xs.map (·.1), commands := xs.map (·.2) }

def drained (nr : Retry) : Bool := nr.cIndexes.isEmpty && nr.cAskings.isEmpty

def push (nr : Retry) (p : Nat × Completed) : Retry := nr.append .none [p.1] [p.2]

variable {nr : Retry}

theorem laws : Buckets.Laws pairs refill drained push {}
    (fun nr => (nr.aIndexes, nr.cAskings)) Aligned where
  good_empty := ⟨rfl, rfl⟩
  good_push _ _ h := ⟨length_snoc h.commands _ _, h.askings⟩
  good_refill _ _ h := ⟨by simp [refill], h.askings⟩
  items_empty := rfl
  items_push _ p h := zip_snoc h.commands p
  items_refill _ xs := zip_fst_snd xs
  items_drained _ h := zip_of_drained h
  asks_push _ _ := rfl
  asks_refill _ _ := rfl
  asks_drained _ ha h := asks_of_drained ha.askings h

theorem length_pairs (h : nr.Aligned) : nr.pairs.length = nr.commands.length := by
  rw [pairs, length_zip, h.commands, Nat.min_self]

end Retry

def Connretry.pairs (r : Connretry) : List (Nat × Completed) := content Retry.pairs r.m

/-! ## Transactions -/

def runs : (fuel : Nat) → List (Nat × Completed) → List (List (Nat × Completed))
  | 0, _ => []
  | _, [] => []
  | fuel + 1, p :: rest =>
    if isMulti p.2 then
      let n := (rest.findIdx fun q => isExec q.2) + 1
      (p :: rest.take n) :: runs fuel (rest.drop n)
    else [p] :: runs fuel rest

variable {xs span : List (Nat × Completed)}

theorem flatten_runs (h : xs.length ≤ fuel) : (runs fuel xs).flatten = xs := by
  induction fuel generalizing xs with
  | zero => rw [length_eq_zero_iff.mp (Nat.le_zero.mp h)]; rfl
  | succ fuel ih =>
    cases xs with
    | nil => rfl
    | cons p rest =>
      rw [length_cons] at h
      rw [runs]
      split
      · rw [flatten_cons, ih (by rw [length_drop]; omega), cons_append,
          take_append_drop]
      · rw [flatten_cons, ih (by omega)]
        rfl

/-- A MULTI with what follows up to the first EXEC, or up to the end. -/
structure Span (xs span : List (Nat × Completed)) : Prop where
  multi : ∃ p, span.head? = some p ∧ isMulti p.2 = true
  inner : ∀ p ∈ span.dropLast, isExec p.2 = false
  place : ∃ pre post, xs = pre ++ span ++ post ∧
    ((∃ p, span.getLast? = some p ∧ isExec p.2 = true) ∨ post = [])

theorem Span.ne_nil (h : Span xs span) : span ≠ [] := by
  obtain ⟨p, hp, -⟩ := h.multi
  rintro rfl
  cases hp

theorem span_in_run {p : Nat × Completed} {rest pre post : List (Nat × Completed)}
    (hxs : p :: rest = pre ++ span ++ post) (hinner : ∀ q ∈ span.dropLast, isExec q.2 = false)
    (hpre : pre.length ≤ (rest.findIdx fun q => isExec q.2) + 1) :
    span <:+: p :: rest.take ((rest.findIdx fun q => isExec q.2) + 1) := by
  generalize hn : (rest.findIdx fun q => isExec q.2) + 1 = n at hpre ⊢
  have hlen : pre.length + span.length ≤ n + 1 := by
    -- otherwise the EXEC that ends the run is inside the span
    by_contra hlong
    have htotal := congrArg length hxs
    simp only [length_append, length_cons] at htotal
    have hfind : rest.findIdx (fun q => isExec q.2) < rest.length := by omega
    have hexec : isExec (rest.get ⟨_, hfind⟩).2 = true :=
      findIdx_getElem (p := fun q : Nat × Completed => isExec q.2) (w := hfind)
    have hget : (p :: rest)[n]? = some (rest.get ⟨_, hfind⟩) := by
      rw [← hn, getElem?_cons_succ, getElem?_eq_getElem hfind]
      rfl
    rw [hxs, append_assoc, getElem?_append_right hpre,
      getElem?_append_left (by omega)] at hget
    have hmem : rest.get ⟨_, hfind⟩ ∈ span.dropLast := by
      apply mem_of_getElem? (i := n - pre.length)
      rwa [getElem?_dropLast, if_pos (by omega)]
    cases (hinner _ hmem).symm.trans hexec
  have htake : p :: rest.take n = (pre ++ span ++ post).take (n + 1) := by
    rw [← hxs, take_succ_cons]
  rw [htake, take_append, take_of_length_le (by rw [length_append]; omega)]
  exact ⟨pre, _, rfl⟩

theorem Span.infix_run (h : Span xs span) (hfuel : xs.length ≤ fuel) :
    ∃ run ∈ runs fuel xs, span <:+: run := by
  obtain ⟨pre, post, hxs, hend⟩ := h.place
  have hne := h.ne_nil
  induction fuel generalizing xs pre with
  | zero =>
    have hnil := length_eq_zero_iff.mp (Nat.le_zero.mp hfuel)
    rw [hxs, append_eq_nil_iff, append_eq_nil_iff] at hnil
    exact absurd hnil.1.2 hne
  | succ fuel ih =>
    cases xs with
    | nil =>
      rw [eq_comm, append_eq_nil_iff, append_eq_nil_iff] at hxs
      exact absurd hxs.1.2 hne
    | cons p rest =>
      rw [length_cons] at hfuel
      rw [runs]
      split
      · by_cases hpre : pre.length ≤ (rest.findIdx fun q => isExec q.2) + 1
        · exact ⟨_, mem_cons_self, span_in_run hxs h.inner hpre⟩
        · generalize (rest.findIdx fun q => isExec q.2) + 1 = n at hpre ⊢
          have hdrop : rest.drop n = pre.drop (n + 1) ++ span ++ post := by
            rw [← drop_succ_cons (a := p), hxs, append_assoc,
              drop_append_of_le_length (by omega), append_assoc]
          have hspan : Span (rest.drop n) span :=
            ⟨h.multi, h.inner, pre.drop (n + 1), post, hdrop, hend⟩
          obtain ⟨run, hmem, hinfix⟩ :=
            ih hspan (by rw [length_drop]; omega) (pre.drop (n + 1)) hdrop
          exact ⟨run, mem_cons_of_mem _ hmem, hinfix⟩
      next hmulti =>
        cases pre with
        | nil =>
          obtain ⟨q, hq, hqm⟩ := h.multi
          cases span with
          | nil => exact absurd rfl hne
          | cons s span =>
            cases (cons.inj hxs).1
            cases hq
            exact absurd hqm hmulti
        | cons q pre =>
          have hrest : rest = pre ++ span ++ post := (cons.inj hxs).2
          have hspan : Span rest span := ⟨h.multi, h.inner, pre, post, hrest, hend⟩
          obtain ⟨run, hmem, hinfix⟩ := ih hspan (by omega) pre hrest
          exact ⟨run, mem_cons_of_mem _ hmem, hinfix⟩

/-! ## The loops -/

namespace ClusterClient

variable (c : ClusterClient)

theorem place_eq (b : Rebucket) (oldConn nc : Nat) (cmds : List (Nat × Completed)) :
    (b.place oldConn nc cmds).keep = b.keep ++ kept oldConn [(nc, cmds)] ∧
      (b.place oldConn nc cmds).moves = b.moves ++ moved oldConn [(nc, cmds)] := by
  unfold Rebucket.place kept moved
  by_cases hnc : nc = oldConn <;> simp [hnc]

theorem kept_cons (k : Nat) (run : Nat × List (Nat × Completed))
    (rs : List (Nat × List (Nat × Completed))) :
    kept k (run :: rs) = kept k [run] ++ kept k rs ∧
      moved k (run :: rs) = moved k [run] ++ moved k rs := by
  unfold kept moved
  rw [← flatMap_append, ← flatMap_append, ← filter_append, ← filter_append]
  exact ⟨rfl, rfl⟩

theorem rebucketLoop_runs (k oldConn fuel : Nat) (xs : List (Nat × Completed)) (b : Rebucket) :
    ∃ rs : List (Nat × List (Nat × Completed)), rs.map (·.2) = runs fuel xs ∧
      (c.rebucketLoop k oldConn fuel xs b).keep = b.keep ++ kept oldConn rs ∧
      (c.rebucketLoop k oldConn fuel xs b).moves = b.moves ++ moved oldConn rs := by
  induction fuel generalizing xs b with
  | zero => exact ⟨[], rfl, (append_nil _).symm, (append_nil _).symm⟩
  | succ fuel ih =>
    -- what the first run becomes, and what the loop makes of the others
    have hstep : ∀ (nc : Nat) (run rest : List (Nat × Completed)) (b' : Rebucket),
        b'.keep = b.keep ++ kept oldConn [(nc, run)] →
        b'.moves = b.moves ++ moved oldConn [(nc, run)] →
        ∃ rs : List (Nat × List (Nat × Completed)), rs.map (·.2) = run :: runs fuel rest ∧
          (c.rebucketLoop k oldConn fuel rest b').keep = b.keep ++ kept oldConn rs ∧
          (c.rebucketLoop k oldConn fuel rest b').moves =
            b.moves ++ moved oldConn rs := by
      intro nc run rest b' hkeep hmoves
      obtain ⟨rs, hrs, hkept, hmoved⟩ := ih rest b'
      refine ⟨(nc, run) :: rs, by rw [map_cons, hrs], ?_, ?_⟩
      · rw [hkept, hkeep, (kept_cons oldConn (nc, run) rs).1, append_assoc]
      · rw [hmoved, hmoves, (kept_cons oldConn (nc, run) rs).2, append_assoc]
    cases xs with
    | nil => exact ⟨[], rfl, (append_nil _).symm, (append_nil _).symm⟩
    | cons p rest =>
      obtain ⟨ii, cmd⟩ := p
      rw [rebucketLoop, runs]
      dsimp only
      split
      · exact hstep _ _ _ _ (place_eq b oldConn _ _).1 (place_eq b oldConn _ _).2
      split
      · apply hstep oldConn <;> simp [kept, moved]
      · exact hstep _ _ _ _ (place_eq b oldConn _ _).1 (place_eq b oldConn _ _).2

theorem rebucketAll_redistributed (k : Nat) {m : List (Nat × Retry)} (hm : ∀ p ∈ m, p.2.Aligned)
    (prev : Option Nat) :
    Buckets.Redistributed (fun xs => runs xs.length xs) Retry.pairs Retry.refill Retry.drained m
      (c.rebucketAll k m prev).1 (c.rebucketAll k m prev).2 := by
  induction m generalizing prev with
  | nil => exact .nil
  | cons p m ih =>
    obtain ⟨oldConn, nr⟩ := p
    rw [forall_mem_cons] at hm
    rw [rebucketAll]
    split
    next hempty =>
      refine .skip ?_ (ih hm.2 prev)
      rw [Retry.pairs, isEmpty_iff.mp hempty, zip_nil_right]
    · dsimp only
      generalize hb : c.rebucketLoop k oldConn nr.commands.length (nr.cIndexes.zip nr.commands)
        { prev := prev } = b
      obtain ⟨rs, hrs, hkept, hmoved⟩ := c.rebucketLoop_runs k oldConn nr.commands.length
        (nr.cIndexes.zip nr.commands) { prev := prev }
      rw [hb, nil_append] at hkept hmoved
      have hruns : rs.map (·.2) = runs nr.pairs.length nr.pairs := by
        rw [hrs, Retry.length_pairs hm.1]
        rfl
      rw [hkept, hmoved]
      split
      next hdrained => exact .drop rs hruns hdrained (ih hm.2 b.prev)
      next hdrained => exact .keep rs hruns (Bool.eq_false_iff.mpr hdrained) (ih hm.2 b.prev)

theorem m_foldl_moves (moves : List (Nat × Nat × Completed)) (r : Connretry) :
    (moves.foldl (fun r (nc, ii, cmd) =>
      { r with m := (nc, (r.bucket nc).append .none [ii] [cmd]) :: r.m.filter (·.1 != nc) }) r).m =
      deliver Retry.push {} r.m moves := by
  induction moves generalizing r with
  | nil => rfl
  | cons p moves ih =>
    rw [foldl_cons, ih]
    rfl

theorem m_rebucketRetries (k : Nat) (retries : Connretry) :
    (c.rebucketRetries k retries).m = deliver Retry.push {}
      (c.rebucketAll k retries.m none).1 (c.rebucketAll k retries.m none).2 :=
  m_foldl_moves _ _

theorem rebucketRetries_conserved (k : Nat) (hkeys : (keys retries.m).Nodup)
    (hm : ∀ p ∈ retries.m, p.2.Aligned) :
    Buckets.Conserved (fun xs => runs xs.length xs) Retry.pairs Retry.drained {}
      (fun nr => (nr.aIndexes, nr.cAskings)) Retry.Aligned retries.m
      (c.rebucketRetries k retries).m := by
  rw [m_rebucketRetries]
  exact Retry.laws.conserved (fun xs => flatten_runs (Nat.le_refl _)) rfl
    (c.rebucketAll_redistributed k hm none) hkeys hm

end ClusterClient

/-! ## Cached batches -/

namespace Retrycache

def pairs (nr : Retrycache) : List (Nat × CacheableTTL) := nr.cIndexes.zip nr.commands

structure Aligned (nr : Retrycache) : Prop where
  commands : nr.cIndexes.length = nr.commands.length
  askings : nr.aIndexes.length = nr.cAskings.length

def refill (nr : Retrycache) (xs : List (Nat × CacheableTTL)) : Retrycache :=
  { nr with cIndexes := xs.map (·.1), commands := xs.map (·.2) }

def drained (nr : Retrycache) : Bool := nr.cIndexes.isEmpty && nr.cAskings.isEmpty

def push (nr : Retrycache) (p : Nat × CacheableTTL) : Retrycache := nr.append .none p.1 p.2

theorem laws : Buckets.Laws pairs refill drained push {}
    (fun nr => (nr.aIndexes, nr.cAskings)) Aligned where
  good_empty := ⟨rfl, rfl⟩
  good_push _ _ h := ⟨length_snoc h.commands _ _, h.askings⟩
  good_refill _ _ h := ⟨by simp [refill], h.askings⟩
  items_empty := rfl
  items_push _ p h := zip_snoc h.commands p
  items_refill _ xs := zip_fst_snd xs
  items_drained _ h := zip_of_drained h
  asks_push _ _ := rfl
  asks_refill _ _ := rfl
  asks_drained _ ha h := asks_of_drained ha.askings h

end Retrycache

def Connretrycache.pairs (r : Connretrycache) : List (Nat × CacheableTTL) :=
  content Retrycache.pairs r.m

def singles (xs : List (Nat × CacheableTTL)) : List (List (Nat × CacheableTTL)) := xs.map fun p => [p]

theorem flatten_singles (xs : List (Nat × CacheableTTL)) : (singles xs).flatten = xs := by
  induction xs with
  | nil => rfl
  | cons p xs ih => exact congrArg (p :: ·) ih

namespace ClusterClient

variable (c : ClusterClient)

theorem rebucketCacheLoop_runs (k oldConn : Nat) (xs : List (Nat × CacheableTTL)) :
    ∃ rs : List (Nat × List (Nat × CacheableTTL)), rs.map (·.2) = singles xs ∧
      c.rebucketCacheLoop k oldConn xs = (kept oldConn rs, moved oldConn rs) := by
  induction xs with
  | nil => exact ⟨[], rfl, rfl⟩
  | cons p xs ih =>
    obtain ⟨ii, cm⟩ := p
    obtain ⟨rs, hrs, hloop⟩ := ih
    rw [rebucketCacheLoop, hloop]
    dsimp only
    split
    · refine ⟨(oldConn, [(ii, cm)]) :: rs, congrArg ([(ii, cm)] :: ·) hrs, ?_⟩
      simp [kept, moved]
    next nc _ =>
      refine ⟨(nc, [(ii, cm)]) :: rs, congrArg ([(ii, cm)] :: ·) hrs, ?_⟩
      by_cases hnc : nc = oldConn <;> simp [kept, moved, hnc]

theorem rebucketCacheAll_redistributed (k : Nat) (m : List (Nat × Retrycache)) :
    Buckets.Redistributed singles Retrycache.pairs Retrycache.refill Retrycache.drained m
      (c.rebucketCacheAll k m).1 (c.rebucketCacheAll k m).2 := by
  induction m with
  | nil => exact .nil
  | cons p m ih =>
    obtain ⟨oldConn, nr⟩ := p
    rw [rebucketCacheAll]
    dsimp only
    split
    next hempty =>
      refine .skip ?_ ih
      rw [Retrycache.pairs, isEmpty_iff.mp hempty, zip_nil_right]
    · obtain ⟨rs, hrs, hloop⟩ := c.rebucketCacheLoop_runs k oldConn (nr.cIndexes.zip nr.commands)
      rw [hloop]
      split
      next hdrained => exact .drop rs hrs hdrained ih
      next hdrained => exact .keep rs hrs (Bool.eq_false_iff.mpr hdrained) ih

theorem m_foldl_movesCache (moves : List (Nat × Nat × CacheableTTL)) (r : Connretrycache) :
    (moves.foldl (fun r (nc, ii, cm) =>
      { r with m := (nc, (r.bucket nc).append .none ii cm) :: r.m.filter (·.1 != nc) }) r).m =
      deliver Retrycache.push {} r.m moves := by
  induction moves generalizing r with
  | nil => rfl
  | cons p moves ih =>
    rw [foldl_cons, ih]
    rfl

theorem rebucketRetriesCache_conserved (k : Nat) {retries : Connretrycache}
    (hkeys : (keys retries.m).Nodup) (hm : ∀ p ∈ retries.m, p.2.Aligned) :
    Buckets.Conserved singles Retrycache.pairs Retrycache.drained {}
      (fun nr => (nr.aIndexes, nr.cAskings)) Retrycache.Aligned retries.m
      (c.rebucketRetriesCache k retries).m := by
  have hdeliver : (c.rebucketRetriesCache k retries).m = deliver Retrycache.push {}
      (c.rebucketCacheAll k retries.m).1 (c.rebucketCacheAll k retries.m).2 := m_foldl_movesCache _ _
  rw [hdeliver]
  exact Retrycache.laws.conserved flatten_singles rfl (c.rebucketCacheAll_redistributed k retries.m)
    hkeys hm

/-- Both ways of asking for nodes again: no pair of an index and a command is lost or doubled,
askings stay where they are, indexes and commands stay aligned, a drained bucket is taken away, and
a transaction stays together in order. -/
theorem rebucket_conserves (k : Nat) {cached : Connretrycache}
    (hkeys : (keys retries.m).Nodup) (hm : ∀ p ∈ retries.m, p.2.Aligned)
    (hkeys' : (keys cached.m).Nodup) (hm' : ∀ p ∈ cached.m, p.2.Aligned) :
    ((c.rebucketRetries k retries).pairs.Perm retries.pairs ∧
      (∀ cc, ((c.rebucketRetries k retries).bucket cc).aIndexes = (retries.bucket cc).aIndexes ∧
        ((c.rebucketRetries k retries).bucket cc).cAskings = (retries.bucket cc).cAskings) ∧
      (keys (c.rebucketRetries k retries).m).Nodup ∧
      (∀ p ∈ (c.rebucketRetries k retries).m, p.2.Aligned) ∧
      (∀ p ∈ (c.rebucketRetries k retries).m, p.2.commands = [] → p.2.cAskings = [] →
        p ∈ retries.m) ∧
      ∀ cc nr span, (cc, nr) ∈ retries.m → Span nr.pairs span →
        ∃ nc nr', (nc, nr') ∈ (c.rebucketRetries k retries).m ∧ span <:+: nr'.pairs) ∧
    ((c.rebucketRetriesCache k cached).pairs.Perm cached.pairs ∧
      (∀ cc, ((c.rebucketRetriesCache k cached).bucket cc).aIndexes = (cached.bucket cc).aIndexes ∧
        ((c.rebucketRetriesCache k cached).bucket cc).cAskings = (cached.bucket cc).cAskings) ∧
      (keys (c.rebucketRetriesCache k cached).m).Nodup ∧
      (∀ p ∈ (c.rebucketRetriesCache k cached).m, p.2.Aligned) ∧
      ∀ p ∈ (c.rebucketRetriesCache k cached).m, p.2.commands = [] → p.2.cAskings = [] →
        p ∈ cached.m) := by
  have h := c.rebucketRetries_conserved k hkeys hm
  have h' := c.rebucketRetriesCache_conserved k hkeys' hm'
  refine ⟨⟨h.content, fun cc => Prod.mk.inj (h.asks cc), h.keys, h.good, ?_, ?_⟩,
    h'.content, fun cc => Prod.mk.inj (h'.asks cc), h'.keys, h'.good, ?_⟩
  · intro p hp hcommands haskings
    have hindexes : p.2.cIndexes = [] := by simpa [hcommands] using (h.good p hp).commands
    exact h.drained p hp (by simp [Retry.drained, hindexes, haskings])
  · intro cc nr span hnr hspan
    obtain ⟨run, hrun, hinfix⟩ := hspan.infix_run (Nat.le_refl _)
    have hne : run ≠ [] := by
      rintro rfl
      exact hspan.ne_nil (eq_nil_of_infix_nil hinfix)
    obtain ⟨nc, nr', hmem, htogether⟩ := h.together cc nr run hnr hrun hne
    exact ⟨nc, nr', hmem, hinfix.trans htogether⟩
  · intro p hp hcommands haskings
    have hindexes : p.2.cIndexes = [] := by simpa [hcommands] using (h'.good p hp).commands
    exact h'.drained p hp (by simp [Retrycache.drained, hindexes, haskings])

def relocated : ClusterClient where
  retry := true
  hasLftm := false
  maxMovedRedirections := 0
  conns _ _ := { doMulti := fun _ _ ml => ml.map fun _ => {},
                 length_doMulti := fun _ _ _ => List.length_map _ }
  redirectOrNew _ _ _ _ _ _ _ := 1
  retryDelay _ _ _ _ _ _ := 0
  now _ _ _ _ := {}
  pick _ _ _ _ := some 1
  sendToReplicas := none

def partialSpan : Connretry :=
  { m := [(0, { cIndexes := [0, 1, 2],
                commands := [newCompleted [lit "PING"], newCompleted [lit "MULTI"],
                  newCompleted [lit "INCR", lit "k"]] })] }

theorem rebucket_conserves_partial_span :
    (relocated.rebucketRetries 0 partialSpan).pairs.Perm partialSpan.pairs ∧
      ∃ nc nr', (nc, nr') ∈ (relocated.rebucketRetries 0 partialSpan).m ∧
        [(1, newCompleted [lit "MULTI"]), (2, newCompleted [lit "INCR", lit "k"])] <:+:
          nr'.pairs := by
  have hm : ∀ p ∈ partialSpan.m, p.2.Aligned := by
    intro p hp
    rw [mem_singleton.mp hp]
    exact ⟨rfl, rfl⟩
  have hkeys : (keys partialSpan.m).Nodup := by decide
  have hkeys' : (keys (Connretrycache.m {})).Nodup := nodup_nil
  have hm' : ∀ p ∈ Connretrycache.m {}, p.2.Aligned := fun p hp => by cases hp
  have h := relocated.rebucket_conserves 0 hkeys hm hkeys' hm'
  refine ⟨h.1.1, h.1.2.2.2.2.2 0 _ _ mem_cons_self ⟨⟨_, rfl, by decide⟩, by decide, ?_⟩⟩
  exact ⟨[(0, newCompleted [lit "PING"])], [], rfl, Or.inr rfl⟩

end ClusterClient

end Rueidis
