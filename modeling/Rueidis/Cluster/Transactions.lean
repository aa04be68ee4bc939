import Rueidis.Cluster.Results
import Rueidis.Library.Buckets

/-!
# Transactions in the retries

The search for a MULTI..EXEC block starts at the failed command and goes both ways.  For a command
inside of a block this finds the block, once; a failed EXEC ends the search at itself, and so goes
into the retries alone.
-/

namespace Rueidis

open List Boundaries Connretry

variable {nc q : Nat} {out : DoResult} {resps : List RedisResult} {given : Connretry} {delay : Int}
  {now : Moment} {addr : Bytes} {rd : Round} {cIndexes : List Nat} {commands : List Completed}

structure Block (commands : List Completed) (m e : Nat) : Prop where
  lt : m < e
  multi : hit isMulti commands m = true
  exec : hit isExec commands e = true
  inner : ∀ k, m < k → k < e → hit boundary commands k = false

def within (m e q : Nat) : Bool :=
  decide (m ≤ q) && decide (q ≤ e)

def Added.meets (m e : Nat) (a : Added) : Bool :=
  a.positions.any (within m e)

variable {m e i : Nat} {mode : RedirectMode} {a : Added}

theorem meets_single : (Added.single nc mode i delay).meets m e = true ↔ m ≤ i ∧ i ≤ e := by
  simp [Added.meets, Added.positions, within]

theorem meets_block {mi ei : Nat} (hme : m ≤ e) (hle : mi ≤ ei) :
    (Added.block nc mode mi ei).meets m e = true ↔ mi ≤ e ∧ m ≤ ei := by
  simp only [Added.meets, within, Added.positions, any_eq_true, mem_range'_1, Bool.and_eq_true,
    decide_eq_true_eq]
  constructor
  · rintro ⟨q, hq, hin⟩
    omega
  · intro h
    exact ⟨max m mi, by omega, by omega⟩

section Blocks

variable {commands : List Completed} {m e : Nat}

theorem hit_boundary_of_multi (h : hit isMulti commands m = true) :
    hit boundary commands m = true := by
  obtain ⟨cmd, hcmd, hmulti⟩ := hit_iff.mp h
  exact hit_iff.mpr ⟨cmd, hcmd, by rw [boundary, hmulti, Bool.true_or]⟩

theorem hit_boundary_of_exec (h : hit isExec commands e = true) :
    hit boundary commands e = true := by
  obtain ⟨cmd, hcmd, hexec⟩ := hit_iff.mp h
  exact hit_iff.mpr ⟨cmd, hcmd, by rw [boundary, hexec, Bool.or_true]⟩

theorem not_hit_both (hmulti : hit isMulti commands i = true)
    (hexec : hit isExec commands i = true) : False := by
  obtain ⟨cmd, hcmd, hm⟩ := hit_iff.mp hmulti
  obtain ⟨cmd', hcmd', he⟩ := hit_iff.mp hexec
  cases hcmd.symm.trans hcmd'
  cases (isExec_eq_false_of_isMulti hm).symm.trans he

theorem Block.unique {m' e' : Nat} (hb : Block commands m e) (hb' : Block commands m' e')
    (hq : m ≤ q ∧ q ≤ e) (hq' : m' ≤ q ∧ q ≤ e') : m = m' ∧ e = e' := by
  have hlt := hb.lt
  have hlt' := hb'.lt
  -- no end of the one is inside of the other, and none is both a MULTI and an EXEC
  have hout : ∀ {m e k : Nat}, Block commands m e → hit boundary commands k = true →
      k ≤ m ∨ e ≤ k := by
    intro m e k hb hk
    by_contra hin
    cases (hb.inner k (by omega) (by omega)).symm.trans hk
  have hne : m ≠ e' := fun h => not_hit_both hb.multi (h ▸ hb'.exec)
  have hne' : m' ≠ e := fun h => not_hit_both hb'.multi (h ▸ hb.exec)
  have h1 := hout hb (hit_boundary_of_multi hb'.multi)
  have h2 := hout hb (hit_boundary_of_exec hb'.exec)
  have h3 := hout hb' (hit_boundary_of_multi hb.multi)
  have h4 := hout hb' (hit_boundary_of_exec hb.exec)
  omega

theorem search_inner (hb : Block commands m e) (hmi : m < i) (hie : i < e) :
    search commands i = ⟨m, e⟩ := by
  have hdown : scanDown boundary commands i = m :=
    scanDown_eq (hit_boundary_of_multi hb.multi) (by omega)
      fun k hk hki => hb.inner k hk (by omega)
  have hup : scanUp boundary commands i = e :=
    scanUp_eq (hit_boundary_of_exec hb.exec) (by omega)
      fun k hk hke => hb.inner k (by omega) hke
  unfold search
  rw [hdown, hup]

theorem search_boundary (hi : hit boundary commands i = true) :
    search commands i = ⟨i, i⟩ := by
  unfold search
  rw [scanDown_eq hi (Nat.le_refl i) fun k _ _ => by omega,
    scanUp_eq hi (Nat.le_refl i) fun k _ _ => by omega]

theorem block_of_found (h : found commands resps (search commands i) = true) :
    ∃ mi ei : Nat, search commands i = ⟨mi, ei⟩ ∧ Block commands mi ei ∧ mi < i ∧ i < ei ∧
      (resps.getD mi {}).val.string = lit "OK" := by
  unfold found at h
  simp only [Bool.and_eq_true, decide_eq_true_eq, beq_iff_eq] at h
  obtain ⟨⟨⟨⟨hnonneg, hlt⟩, hmulti⟩, hexec⟩, hok⟩ := h
  have hscan : scanDown boundary commands i = -1 ∨ _ := scanDown_cases i
  rcases hscan with hnone | ⟨mi, hle, hmi, hhit, hafter⟩
  · change 0 ≤ scanDown boundary commands i at hnonneg
    omega
  · have hsearch : search commands i = ⟨mi, (scanUp boundary commands i : Nat)⟩ := by
      unfold search
      rw [hmi]
    rw [hsearch] at hmulti hexec hok
    set ei := scanUp boundary commands i with hei
    change hit isExec commands ei = true at hexec
    have hile : i ≤ ei := le_scanUp i
    -- a search from one of the ends would find a command that is both
    have hne : mi ≠ i := by
      rintro rfl
      rw [scanUp_eq hhit (Nat.le_refl mi) fun k _ _ => by omega] at hei
      rw [hei] at hexec
      exact not_hit_both hmulti hexec
    have hnot : hit boundary commands i = false := hafter i (by omega) (Nat.le_refl i)
    have hne' : ei ≠ i := by
      intro heq
      rw [heq] at hexec
      rw [hit_boundary_of_exec hexec] at hnot
      cases hnot
    refine ⟨mi, ei, hsearch, ⟨by omega, hmulti, hexec, ?_⟩, by omega, by omega, hok⟩
    intro k hk hke
    by_cases hki : k ≤ i
    · exact hafter k hk hki
    · exact not_hit_of_lt_scanUp (by omega) hke

end Blocks

/-! ## Replies -/

def RedisResult.redirects (resp : RedisResult) : Bool :=
  match resp.error with
  | some (.redis m) => (lit "MOVED").isPrefixOf m.string || (lit "ASK").isPrefixOf m.string
  | _ => false

/-- An error after which sending again may help: CLUSTERDOWN, TRYAGAIN, LOADING, or a failed
connection while the context is not done. -/
def RedisResult.transient (now : Moment) (resp : RedisResult) : Bool :=
  match resp.error with
  | none | some .nil | some .doCacheAborted => false
  | some (.redis m) => isClusterDown m || isTryAgain m || isLoading m
  | some _ => !now.ctxDone

theorem redirectAddr_isSome {word : Bytes} {field : Nat} {s : Bytes} {addr : Option Bytes}
    (h : redirectAddr word field s = .ok addr) : addr.isSome = word.isPrefixOf s := by
  unfold redirectAddr at h
  split at h
  next hpre =>
    split at h <;> cases h
    exact hpre.symm
  next hpre =>
    cases h
    exact (Bool.eq_false_iff.mpr hpre).symm

theorem shouldRefreshRetry_redis {m : RedisMessage} (hstop : now.stop = false)
    (h : shouldRefreshRetry now (some (.redis m)) = .ok (addr, mode)) :
    ((mode = .move ∨ mode = .ask) ↔
      ((lit "MOVED").isPrefixOf m.string || (lit "ASK").isPrefixOf m.string) = true) ∧
    (mode = .retry ↔
      ((lit "MOVED").isPrefixOf m.string || (lit "ASK").isPrefixOf m.string) = false ∧
        (isClusterDown m || isTryAgain m || isLoading m) = true) := by
  unfold shouldRefreshRetry at h
  rw [hstop] at h
  dsimp only [Bool.false_eq_true, if_false] at h
  rcases hmoved : isMoved m with p | moved
  · simp [hmoved] at h
  rw [hmoved] at h
  rw [← redirectAddr_isSome hmoved]
  cases moved with
  | some a =>
    cases h
    simp
  | none =>
    rcases hask : isAsk m with p | ask
    · simp [hask] at h
    rw [hask] at h
    rw [← redirectAddr_isSome hask]
    cases ask <;> cases h
    · cases isClusterDown m || isTryAgain m || isLoading m <;> simp
    · simp

theorem shouldRefreshRetry_mode {resp : RedisResult}
    (h : shouldRefreshRetry now resp.error = .ok (addr, mode)) :
    ((mode = .move ∨ mode = .ask) ↔ now.stop = false ∧ resp.redirects = true) ∧
    (mode = .retry ↔ now.stop = false ∧ resp.redirects = false ∧ resp.transient now = true) := by
  unfold RedisResult.redirects RedisResult.transient
  generalize resp.error = err at h
  match err with
  | none | some .nil | some .doCacheAborted =>
    cases h
    simp
  | some (.redis m) =>
    by_cases hstop : now.stop = true
    · dsimp only [shouldRefreshRetry] at h
      rw [if_pos hstop] at h
      cases h
      simp [hstop]
    · have hstop' := Bool.eq_false_iff.mpr hstop
      obtain ⟨hredirect, hretry⟩ := shouldRefreshRetry_redis hstop' h
      rw [hredirect, hretry]
      simp [hstop']
  | some (.parse text) | some .connExpired | some .closing | some .canceled
  | some .deadlineExceeded | some (.other text) =>
    cases h
    cases now.stop <;> cases now.ctxDone <;> simp

/-! ## One reply -/

section Redirected

variable {rd : Round} {commands : List Completed} {resps : List RedisResult} {m e : Nat}
  {i : Nat} {cm : Completed} {resp : RedisResult} {addr : Bytes} {mode : RedirectMode} {sc : Scan}

variable {searched : Bool}

theorem redirected_of_searches (h : (rd.hasInit && decide (sc.ei < i)) = true) :
    redirected rd commands resps i cm resp addr mode sc =
      (search commands i, place rd commands resps i cm resp addr mode true (search commands i)) :=
  if_pos h

theorem redirected_of_not_searches (h : (rd.hasInit && decide (sc.ei < i)) = false) :
    redirected rd commands resps i cm resp addr mode sc =
      (sc, place rd commands resps i cm resp addr mode false sc) :=
  if_neg (Bool.eq_false_iff.mp h)

theorem place_single (hfound : (searched && found commands resps sc) = false)
    (hprocessed : processed commands sc i = false) :
    ∃ nc delay, place rd commands resps i cm resp addr mode searched sc =
      some (.single nc mode i delay) := by
  unfold place
  rw [hfound, hprocessed, Bool.and_false]
  exact ⟨_, _, rfl⟩

theorem place_eq_some (h : place rd commands resps i cm resp addr mode searched sc = some a) :
    (∃ nc delay, a = .single nc mode i delay) ∨ ∃ nc,
      (searched && found commands resps sc) = true ∧ a = .block nc mode sc.mi.toNat sc.ei.toNat := by
  unfold place at h
  by_cases hfound : (searched && found commands resps sc) = true
  · rw [if_pos hfound] at h
    cases h
    exact .inr ⟨_, hfound, rfl⟩
  · rw [if_neg hfound] at h
    split at h <;> cases h
    exact .inl ⟨_, _, rfl⟩

theorem redirected_cases (h : (redirected rd commands resps i cm resp addr mode sc).2 = some a) :
    (∃ nc delay, a = .single nc mode i delay) ∨
    ∃ nc mi ei, a = .block nc mode mi ei ∧ rd.hasInit = true ∧ Block commands mi ei ∧ mi < i ∧
      i < ei ∧ (resps.getD mi {}).val.string = lit "OK" := by
  unfold redirected at h
  split at h <;> dsimp only at h
  next hsearches =>
    rcases place_eq_some h with hsingle | ⟨nc, hfound, rfl⟩
    · exact .inl hsingle
    · obtain ⟨mi, ei, hsearch, hb, hmi, hei, hok⟩ := block_of_found hfound
      rw [hsearch]
      exact .inr ⟨_, mi, ei, rfl, (Bool.and_eq_true_iff.mp hsearches).1, hb, hmi, hei, hok⟩
  · refine .inl ((place_eq_some h).resolve_right ?_)
    rintro ⟨nc, hfound, -⟩
    cases hfound

theorem redirected_inner (hinit : rd.hasInit = true) (hb : Block commands m e)
    (hok : (resps.getD m {}).val.string = lit "OK") (hmi : m < i) (hie : i < e)
    (hsc : sc.ei ≤ m) :
    ∃ nc, redirected rd commands resps i cm resp addr mode sc =
      (⟨m, e⟩, some (.block nc mode m e)) := by
  have hsearches : (rd.hasInit && decide (sc.ei < i)) = true := by
    rw [hinit, Bool.true_and, decide_eq_true_eq]
    omega
  have hfound : found commands resps ⟨m, e⟩ = true := by
    have hlt := lt_length_of_hit hb.exec
    unfold found
    simp only [Bool.and_eq_true, decide_eq_true_eq, beq_iff_eq]
    exact ⟨⟨⟨⟨by omega, by omega⟩, hb.multi⟩, hb.exec⟩, hok⟩
  rw [redirected_of_searches hsearches, search_inner hb hmi hie]
  unfold place
  rw [hfound]
  exact ⟨_, rfl⟩

theorem redirected_again (hinit : rd.hasInit = true) (hb : Block commands m e) (hmi : m < i)
    (hie : i < e) :
    redirected rd commands resps i cm resp addr mode ⟨m, e⟩ = (⟨m, e⟩, none) := by
  have hsearches : (rd.hasInit && decide ((e : Int) < i)) = false := by
    rw [hinit, Bool.true_and, decide_eq_false_iff_not]
    omega
  have hprocessed : processed commands ⟨m, e⟩ i = true := by
    unfold processed
    simp only [Bool.and_eq_true, decide_eq_true_eq]
    exact ⟨⟨⟨by omega, by omega⟩, by omega⟩, hb.multi⟩
  rw [redirected_of_not_searches hsearches]
  unfold place
  rw [Bool.false_and, if_neg (by simp), hinit, hprocessed]
  rfl

variable (hb : Block commands m e)

include hb

theorem redirected_exec (hsc : sc.ei ≤ m ∨ sc = ⟨m, e⟩) :
    ∃ nc delay, (redirected rd commands resps e cm resp addr mode sc).2 =
      some (.single nc mode e delay) := by
  have hlt := hb.lt
  by_cases hsearches : (rd.hasInit && decide (sc.ei < e)) = true
  · -- the search starts at a boundary, so both of its ends are the EXEC
    have hhere := search_boundary (hit_boundary_of_exec hb.exec)
    have hfound : found commands resps ⟨e, e⟩ = false := by
      refine Bool.eq_false_iff.mpr (fun hfound => ?_)
      simp only [found, Bool.and_eq_true] at hfound
      exact not_hit_both hfound.1.1.2 hb.exec
    rw [redirected_of_searches hsearches, hhere]
    exact place_single (by rw [hfound, Bool.and_false]) (by simp [processed])
  · rw [redirected_of_not_searches (Bool.eq_false_iff.mpr hsearches)]
    have hei : ¬ (e : Int) < sc.ei := by
      rcases hsc with hsc | rfl
      · omega
      · exact Int.lt_irrefl _
    have hfound : (false && found commands resps sc) = false := Bool.false_and _
    exact place_single hfound (by simp [processed, hei])

theorem redirected_before (him : i ≤ m) (hsc : sc.ei ≤ m) :
    (redirected rd commands resps i cm resp addr mode sc).1.ei ≤ m := by
  by_cases hsearches : (rd.hasInit && decide (sc.ei < i)) = true
  · rw [redirected_of_searches hsearches]
    show ((scanUp boundary commands i : Nat) : Int) ≤ m
    by_contra hgt
    have hlt : m < scanUp boundary commands i := by omega
    cases (not_hit_of_lt_scanUp him hlt).symm.trans (hit_boundary_of_multi hb.multi)
  · rw [redirected_of_not_searches (Bool.eq_false_iff.mpr hsearches)]
    exact hsc

theorem redirected_outside (hout : i < m ∨ e < i)
    (h : (redirected rd commands resps i cm resp addr mode sc).2 = some a) :
    a.meets m e = false := by
  have hlt := hb.lt
  refine Bool.eq_false_iff.mpr (fun hmeets => ?_)
  rcases redirected_cases h with ⟨nc, delay, rfl⟩ | ⟨nc, mi, ei, rfl, -, hb', hmi, hei, -⟩
  · rw [meets_single] at hmeets
    omega
  · rw [meets_block (by omega) (by omega)] at hmeets
    have hsame := hb.unique hb' (q := max m mi) ⟨by omega, by omega⟩ ⟨by omega, by omega⟩
    omega

end Redirected

/-! ## The whole loop -/

section Loop

variable (rd : Round) (commands : List Completed) (resps : List RedisResult)

variable {results : List RedisResult}

def modeAt (i : Nat) : RedirectMode :=
  match shouldRefreshRetry (rd.now i) (resps.getD i {}).error with
  | .ok (_, mode) => mode
  | .error _ => .none

def resendsAt (i : Nat) : Bool := resends rd (commands.getD i {}) (modeAt rd resps i)

inductive Passed (i : Nat) (sc : Scan) : Scan → Option Added → Prop where
  | kept (h : resendsAt rd commands resps i = false) : Passed i sc sc none
  | resent (cm : Completed) (resp : RedisResult) (addr : Bytes)
      (h : resendsAt rd commands resps i = true) :
      Passed i sc (redirected rd commands resps i cm resp addr (modeAt rd resps i) sc).1
        (redirected rd commands resps i cm resp addr (modeAt rd resps i) sc).2

variable {rd commands resps}

inductive Looped (rd : Round) (commands : List Completed) (resps : List RedisResult) :
    Nat → Scan → List Added → Prop where
  | done {i : Nat} (sc : Scan) (h : resps.length ≤ i) : Looped rd commands resps i sc []
  | pass {i : Nat} {sc sc' : Scan} {added : Option Added} {adds : List Added}
      (hi : i < resps.length) (hpassed : Passed rd commands resps i sc sc' added)
      (hmode : ∃ addr, shouldRefreshRetry (rd.now i) (resps.getD i {}).error =
        .ok (addr, modeAt rd resps i))
      (hrest : Looped rd commands resps (i + 1) sc' adds) :
      Looped rd commands resps i sc (added.toList ++ adds)

variable {sc : Scan} {adds : List Added}

theorem looped_of_drop {rest : List RedisResult} (hdrop : resps.drop i = rest)
    (h : resultLoop rd commands resps i rest sc = .ok (results, adds)) :
    Looped rd commands resps i sc adds := by
  induction rest generalizing i sc results adds with
  | nil =>
    cases h
    exact .done sc (drop_eq_nil_iff.mp hdrop)
  | cons resp rest ih =>
    have hresp : resps[i]? = some resp := by rw [← head?_drop, hdrop, head?_cons]
    have hget : resps.getD i {} = resp := by rw [getD_eq_getElem?_getD, hresp, Option.getD_some]
    rw [resultLoop] at h
    split at h
    iterate 3 cases h
    next cm addr mode closing hcm hmode hclosing =>
    have hat : modeAt rd resps i = mode := by
      unfold modeAt
      rw [hget, hmode]
    have hresends : resendsAt rd commands resps i = resends rd cm mode := by
      unfold resendsAt
      rw [hat, getD_eq_getElem?_getD, hcm, Option.getD_some]
    dsimp only at h
    split at h <;> cases h
    next results' adds' hrest =>
    refine .pass (List.getElem?_eq_some_iff.mp hresp).1 ?_ ⟨addr, by rw [hget, hat, hmode]⟩
      (ih (by rw [← tail_drop, hdrop, tail_cons]) hrest)
    by_cases hr : resends rd cm mode = true
    · rw [if_pos hr, ← hat]
      exact .resent cm resp addr (hresends.trans hr)
    · rw [if_neg hr]
      exact .kept (hresends.trans (Bool.eq_false_iff.mpr hr))

theorem looped_of_resultLoop (h : resultLoop rd commands resps 0 resps {} = .ok (results, adds)) :
    Looped rd commands resps 0 {} adds :=
  looped_of_drop rfl h

theorem Looped.modes (h : Looped rd commands resps i sc adds) {j : Nat} (hij : i ≤ j)
    (hj : j < resps.length) : ∃ addr, shouldRefreshRetry (rd.now j) (resps.getD j {}).error =
      .ok (addr, modeAt rd resps j) := by
  induction h with
  | done => omega
  | pass hi hpassed hmode hrest ih =>
    rcases Nat.eq_or_lt_of_le hij with rfl | hlt
    · exact hmode
    · exact ih hlt

/-- The reply asks for its command to be sent again: a redirection does, and so does an error that
may pass, if retries are on and the command is retryable. -/
def asksAgain (rd : Round) (commands : List Completed) (resps : List RedisResult) (i : Nat) : Bool :=
  !(rd.now i).stop && ((resps.getD i {}).redirects ||
    (rd.retry && (commands.getD i {}).isRetryable && (resps.getD i {}).transient (rd.now i)))

theorem resendsAt_eq
    (h : ∃ addr, shouldRefreshRetry (rd.now i) (resps.getD i {}).error =
      .ok (addr, modeAt rd resps i)) :
    resendsAt rd commands resps i = asksAgain rd commands resps i := by
  obtain ⟨addr, h⟩ := h
  obtain ⟨hredirect, hretry⟩ := shouldRefreshRetry_mode h
  unfold resendsAt asksAgain
  generalize modeAt rd resps i = mode at hredirect hretry
  generalize (rd.now i).stop = stop at hredirect hretry
  generalize (resps.getD i {}).redirects = red at hredirect hretry
  generalize (resps.getD i {}).transient (rd.now i) = tran at hretry
  -- the mode says which of the three facts hold
  cases mode with
  | none => cases stop <;> cases red <;> cases tran <;> simp_all [resends]
  | move =>
    obtain ⟨rfl, rfl⟩ := hredirect.mp (.inl rfl)
    rfl
  | ask =>
    obtain ⟨rfl, rfl⟩ := hredirect.mp (.inr rfl)
    rfl
  | retry =>
    obtain ⟨rfl, rfl, rfl⟩ := hretry.mp rfl
    simp [resends]

theorem Looped.added (h : Looped rd commands resps i sc adds) (ha : a ∈ adds) :
    ∃ p < resps.length, i ≤ p ∧ resendsAt rd commands resps p = true ∧ ∃ cm resp addr sc,
      (redirected rd commands resps p cm resp addr (modeAt rd resps p) sc).2 = some a := by
  induction h with
  | done => cases ha
  | @pass i _ _ _ _ hi hpassed hmode hrest ih =>
    rcases mem_append.mp ha with ha | ha
    · cases hpassed with
      | kept hr => cases ha
      | resent cm resp addr hr =>
        exact ⟨i, hi, Nat.le_refl i, hr, cm, resp, addr, _, Option.mem_toList.mp ha⟩
    · obtain ⟨p, hp, hip, hr⟩ := ih ha
      exact ⟨p, hp, by omega, hr⟩

theorem Looped.block_added (hinit : rd.hasInit = true) (hb : Block commands m e)
    (hok : (resps.getD m {}).val.string = lit "OK") {p : Nat} (hmp : m < p) (hpe : p < e)
    (hp : resendsAt rd commands resps p = true) (hplen : p < resps.length)
    (h : Looped rd commands resps i sc adds) (hip : i ≤ p) (hsc : sc.ei ≤ m) :
    ∃ nc mode, .block nc mode m e ∈ adds := by
  induction h with
  | done => omega
  | @pass i sc sc' added adds hi hpassed hmode hrest ih =>
    have hnext : i + 1 ≤ p → sc'.ei ≤ m → ∃ nc mode, .block nc mode m e ∈ added.toList ++ adds := by
      intro hip' hsc'
      obtain ⟨nc, mode, hmem⟩ := ih hip' hsc'
      exact ⟨nc, mode, mem_append_right _ hmem⟩
    cases hpassed with
    | kept hr =>
      refine hnext (Nat.lt_of_le_of_ne hip ?_) hsc
      rintro rfl
      cases hr.symm.trans hp
    | resent cm resp addr hr =>
      by_cases him : i ≤ m
      · exact hnext (by omega) (redirected_before hb him hsc)
      · obtain ⟨nc, heq⟩ : ∃ nc, redirected rd commands resps i cm resp addr (modeAt rd resps i) sc =
            (⟨m, e⟩, some (.block nc (modeAt rd resps i) m e)) :=
          redirected_inner hinit hb hok (by omega) (by omega) hsc
        rw [heq]
        exact ⟨nc, _, mem_append_left _ (mem_singleton.mpr rfl)⟩

section Whole

variable {m e : Nat} (hb : Block commands m e)
include hb

theorem Looped.after (h : Looped rd commands resps i sc adds) (hei : e < i) :
    adds.filter (·.meets m e) = [] := by
  refine filter_eq_nil_iff.mpr fun a ha => Bool.eq_false_iff.mp ?_
  obtain ⟨p, -, hip, -, cm, resp, addr, sc', ha⟩ := h.added ha
  exact redirected_outside hb (.inr (by omega)) ha

/-- What the pass over the EXEC adds: the EXEC alone, if its reply asks for it. -/
def ExecAdded (again : Bool) (e : Nat) (adds : List Added) : Prop :=
  again = false ∧ adds = [] ∨ again = true ∧ ∃ nc mode delay, adds = [.single nc mode e delay]

variable (helen : e < resps.length)
include helen

theorem Looped.at_exec (h : Looped rd commands resps e sc adds) (hsc : sc.ei ≤ m ∨ sc = ⟨m, e⟩) :
    ExecAdded (resendsAt rd commands resps e) e (adds.filter (·.meets m e)) := by
  have hlt := hb.lt
  cases h with
  | done => omega
  | pass hi hpassed hmode hrest =>
    rw [filter_append, hrest.after hb (Nat.lt_succ_self e), append_nil]
    cases hpassed with
    | kept hr => exact .inl ⟨hr, rfl⟩
    | resent cm resp addr hr =>
      obtain ⟨nc, delay, heq⟩ : ∃ nc delay,
          (redirected rd commands resps e cm resp addr (modeAt rd resps e) sc).2 =
            some (.single nc (modeAt rd resps e) e delay) := redirected_exec hb hsc
      have hmeets : (Added.single nc (modeAt rd resps e) e delay).meets m e = true :=
        meets_single.mpr ⟨Nat.le_of_lt hlt, Nat.le_refl e⟩
      rw [heq, Option.toList_some, filter_cons, if_pos hmeets]
      exact .inr ⟨hr, nc, _, delay, rfl⟩

variable (hinit : rd.hasInit = true)
include hinit

theorem Looped.processed (h : Looped rd commands resps i sc adds) (hsc : sc = ⟨m, e⟩) (hmi : m < i)
    (hie : i ≤ e) : ExecAdded (resendsAt rd commands resps e) e (adds.filter (·.meets m e)) := by
  induction h with
  | done => omega
  | @pass i sc sc' added adds hi hpassed hmode hrest ih =>
    subst hsc
    rcases Nat.eq_or_lt_of_le hie with rfl | hlt
    · exact Looped.at_exec hb helen (.pass hi hpassed hmode hrest) (.inr rfl)
    have hpass : sc' = ⟨m, e⟩ ∧ added = none := by
      cases hpassed with
      | kept hr => exact ⟨rfl, rfl⟩
      | resent cm resp addr hr =>
        rw [redirected_again hinit hb hmi hlt]
        exact ⟨rfl, rfl⟩
    obtain ⟨rfl, rfl⟩ := hpass
    exact ih rfl (by omega) hlt

/-- Of what meets a block, the loop adds the block once or not at all, and then perhaps the EXEC. -/
theorem Looped.block_once (hok : (resps.getD m {}).val.string = lit "OK")
    (hm : resendsAt rd commands resps m = false) (h : Looped rd commands resps i sc adds)
    (hie : i ≤ e) (hsc : sc.ei ≤ m) :
    ∃ once exec, (once = [] ∨ ∃ nc mode, once = [.block nc mode m e]) ∧
      ExecAdded (resendsAt rd commands resps e) e exec ∧
      adds.filter (·.meets m e) = once ++ exec := by
  have hlt := hb.lt
  induction h with
  | done => omega
  | @pass i sc sc' added adds hi hpassed hmode hrest ih =>
    rcases Nat.eq_or_lt_of_le hie with rfl | hie
    · exact ⟨[], _, .inl rfl, Looped.at_exec hb helen (.pass hi hpassed hmode hrest) (.inl hsc), rfl⟩
    rw [filter_append]
    cases hpassed with
    | kept hr => exact ih hie hsc
    | resent cm resp addr hr =>
      have hnem : i ≠ m := by
        rintro rfl
        cases hr.symm.trans hm
      by_cases him : i < m
      · -- in front of the block
        have hout : (redirected rd commands resps i cm resp addr (modeAt rd resps i)
            sc).2.toList.filter (·.meets m e) = [] :=
          filter_eq_nil_iff.mpr fun a ha => Bool.eq_false_iff.mp
            (redirected_outside hb (.inl him) (Option.mem_toList.mp ha))
        rw [hout, nil_append]
        exact ih (by omega) (redirected_before hb (by omega) hsc)
      · -- the first failed command inside
        obtain ⟨nc, heq⟩ : ∃ nc, redirected rd commands resps i cm resp addr (modeAt rd resps i) sc =
            (⟨m, e⟩, some (.block nc (modeAt rd resps i) m e)) :=
          redirected_inner hinit hb hok (by omega) (by omega) hsc
        rw [heq] at hrest ⊢
        have hmeets : (Added.block nc (modeAt rd resps i) m e).meets m e = true :=
          (meets_block (by omega) (by omega)).mpr ⟨by omega, by omega⟩
        rw [Option.toList_some, filter_cons, if_pos hmeets]
        exact ⟨_, _, .inr ⟨nc, _, rfl⟩, hrest.processed hb helen hinit rfl (by omega) (by omega), rfl⟩

end Whole

end Loop

/-! ## What goes into the retries -/

def Added.goesTo (nc : Nat) (asking : Bool) (a : Added) : Bool :=
  decide (nc = a.nc ∧ asking = decide (a.mode = .ask))

/-- The positions that were added to a list of a bucket, in order. -/
def sentAt (adds : List Added) (nc : Nat) (asking : Bool) : List Nat :=
  (adds.filter (·.goesTo nc asking)).flatMap Added.positions

/-- A position of the batch as it stands in the retries: its index and its command. -/
def entryAt (cIndexes : List Nat) (commands : List Completed) (q : Nat) : Nat × Completed :=
  (cIndexes.getD q 0, commands.getD q {})

/-- What a list of a bucket of the retries has behind what was given. -/
def DoResult.resent (out : DoResult) (given : Connretry) (nc : Nat) (asking : Bool) :
    List (Nat × Completed) :=
  (((out.retries.bucket nc).indexes asking).drop ((given.bucket nc).indexes asking).length).zip
    (((out.retries.bucket nc).cmds asking).drop ((given.bucket nc).cmds asking).length)

section Retries

variable (cIndexes : List Nat) (commands : List Completed)

variable {adds : List Added} {asking : Bool}

theorem bucket_add (r : Connretry) (a : Added) (nc : Nat) (asking : Bool) :
    ((r.add cIndexes commands a).bucket nc).indexes asking = (r.bucket nc).indexes asking ++
        (if a.goesTo nc asking then a.positions else []).map (cIndexes.getD · 0) ∧
      ((r.add cIndexes commands a).bucket nc).cmds asking = (r.bucket nc).cmds asking ++
        (if a.goesTo nc asking then a.positions else []).map (commands.getD · {}) := by
  by_cases hnc : a.nc = nc
  · subst hnc
    have hbucket : (r.add cIndexes commands a).bucket a.nc = (r.bucket a.nc).append a.mode
        (a.positions.map (cIndexes.getD · 0)) (a.positions.map (commands.getD · {})) :=
      congrArg (fun o : Option Retry => o.getD {}) (Buckets.lookup_put_self r.m a.nc _)
    rw [hbucket]
    unfold Retry.append Retry.indexes Retry.cmds Added.goesTo
    by_cases hmode : a.mode = .ask <;> cases asking <;> simp [hmode]
  · have hbucket : (r.add cIndexes commands a).bucket nc = r.bucket nc :=
      congrArg (fun o : Option Retry => o.getD {})
        (Buckets.lookup_put_of_ne (fun h => hnc h.symm) r.m _)
    rw [hbucket]
    simp [Added.goesTo, Ne.symm hnc]

theorem bucket_foldl_add (adds : List Added) (r : Connretry) (nc : Nat) (asking : Bool) :
    ((adds.foldl (add cIndexes commands) r).bucket nc).indexes asking =
        (r.bucket nc).indexes asking ++ (sentAt adds nc asking).map (cIndexes.getD · 0) ∧
      ((adds.foldl (add cIndexes commands) r).bucket nc).cmds asking =
        (r.bucket nc).cmds asking ++ (sentAt adds nc asking).map (commands.getD · {}) := by
  induction adds generalizing r with
  | nil => simp [sentAt]
  | cons a adds ih =>
    obtain ⟨hindexes, hcmds⟩ := ih (r.add cIndexes commands a)
    obtain ⟨hindexes', hcmds'⟩ := bucket_add cIndexes commands r a nc asking
    rw [foldl_cons, hindexes, hcmds, hindexes', hcmds']
    by_cases ha : a.goesTo nc asking = true <;> simp [sentAt, ha]

variable {cIndexes commands}

theorem resent_eq (h : out.retries = out.added.foldl (add cIndexes commands) given)
    (nc : Nat) (asking : Bool) :
    out.resent given nc asking = (sentAt out.added nc asking).map (entryAt cIndexes commands) := by
  obtain ⟨hindexes, hcmds⟩ := bucket_foldl_add cIndexes commands out.added given nc
    asking
  unfold DoResult.resent
  rw [h, hindexes, hcmds, drop_left, drop_left, zip_map']
  rfl

theorem sentAt_append (l₁ l₂ : List Added) (nc : Nat) (asking : Bool) :
    sentAt (l₁ ++ l₂) nc asking = sentAt l₁ nc asking ++ sentAt l₂ nc asking := by
  simp [sentAt]

theorem sentAt_singleton (a : Added) (nc : Nat) (asking : Bool) :
    sentAt [a] nc asking = if a.goesTo nc asking then a.positions else [] := by
  by_cases ha : a.goesTo nc asking = true <;> simp [sentAt, ha]

/-- Of a block, only what meets it comes into a list. -/
theorem filter_sentAt (adds : List Added) (nc : Nat) (asking : Bool) (m e : Nat) :
    (sentAt adds nc asking).filter (within m e) =
      (sentAt (adds.filter (·.meets m e)) nc asking).filter (within m e) := by
  induction adds with
  | nil => rfl
  | cons a adds ih =>
    have hnone : a.meets m e = false → a.positions.filter (within m e) = [] := fun h =>
      filter_eq_nil_iff.mpr fun q hq => any_eq_false.mp h q hq
    unfold sentAt at ih ⊢
    by_cases hgoes : a.goesTo nc asking = true <;> by_cases hmeets : a.meets m e = true <;>
      simp_all

theorem mem_sentAt :
    q ∈ sentAt adds nc asking ↔ ∃ a ∈ adds, a.goesTo nc asking = true ∧ q ∈ a.positions := by
  simp [sentAt, and_assoc]

theorem mem_resent (h : out.retries = out.added.foldl (add cIndexes commands) given)
    {sent : Nat × Completed} :
    sent ∈ out.resent given nc asking ↔ ∃ a ∈ out.added, a.goesTo nc asking = true ∧
      ∃ q ∈ a.positions, entryAt cIndexes commands q = sent := by
  rw [resent_eq h]
  simp only [sentAt, mem_map, mem_flatMap, mem_filter]
  constructor
  · rintro ⟨q, ⟨a, ⟨ha, hgoes⟩, hq⟩, rfl⟩
    exact ⟨a, ha, hgoes, q, hq, rfl⟩
  · rintro ⟨a, ha, hgoes, q, hq, rfl⟩
    exact ⟨q, ⟨a, ⟨ha, hgoes⟩, hq⟩, rfl⟩

theorem entryAt_inj (hnodup : cIndexes.Nodup) {p : Nat} (hp : p < cIndexes.length)
    (hq : q < cIndexes.length)
    (h : (entryAt cIndexes commands p).1 = (entryAt cIndexes commands q).1) : p = q := by
  simp only [entryAt, getD_eq_getElem?_getD, getElem?_eq_getElem hp, getElem?_eq_getElem hq,
    Option.getD_some] at h
  exact (hnodup.getElem_inj_iff).mp h

theorem Looped.positions_lt (h : Looped rd commands resps 0 {} adds)
    (hlen : resps.length = commands.length) (ha : a ∈ adds) (hq : q ∈ a.positions) :
    q < commands.length := by
  obtain ⟨p, hp, -, -, cm, resp, addr, sc, hadded⟩ := h.added ha
  rcases redirected_cases hadded with ⟨nc, delay, rfl⟩ | ⟨nc, mi, ei, rfl, -, hb, -, -, -⟩
  · obtain rfl : q = p := mem_singleton.mp hq
    omega
  · have hei := lt_length_of_hit hb.exec
    have hq : q ∈ range' mi (ei + 1 - mi) := hq
    rw [mem_range'_1] at hq
    omega

end Retries

/-! ## Transactions stay whole -/

def blockEntries (cIndexes : List Nat) (commands : List Completed) (m e : Nat) :
    List (Nat × Completed) :=
  (range' m (e + 1 - m)).map (entryAt cIndexes commands)

/-- What a list of a bucket has new of the commands with the indexes of the block. -/
def DoResult.share (out : DoResult) (given : Connretry) (block : List (Nat × Completed)) (nc : Nat)
    (asking : Bool) : List (Nat × Completed) :=
  (out.resent given nc asking).filter fun p => decide (p.1 ∈ block.map Prod.fst)

/-- Of the commands of the block, all are new in the retries, each of them once, together and in
order, in one list of one bucket, or none is. -/
def DoResult.Whole (out : DoResult) (given : Connretry) (cIndexes : List Nat)
    (commands : List Completed) (m e : Nat) : Prop :=
  let block := blockEntries cIndexes commands m e
  (∀ nc asking, out.share given block nc asking = []) ∨
    ∃ nc asking, block <:+: out.resent given nc asking ∧ ∀ nc' asking',
      out.share given block nc' asking' = if nc' = nc ∧ asking' = asking then block else []

theorem DoResult.Whole.share {m e : Nat} (h : out.Whole given cIndexes commands m e) (nc : Nat)
    (asking : Bool) : out.share given (blockEntries cIndexes commands m e) nc asking = [] ∨
      out.share given (blockEntries cIndexes commands m e) nc asking =
        blockEntries cIndexes commands m e := by
  rcases h with hnone | ⟨nc', asking', -, hshares⟩
  · exact .inl (hnone nc asking)
  · rw [hshares]
    split
    · exact .inr rfl
    · exact .inl rfl

section Whole

variable {commands : List Completed} {cIndexes : List Nat} {given : Connretry} {out : DoResult}
  {m e : Nat} (hindexes : cIndexes.length = commands.length) (hnodup : cIndexes.Nodup)
  (he : e < commands.length)
  (hretries : out.retries = out.added.foldl (add cIndexes commands) given)
  (hlt : ∀ a ∈ out.added, ∀ q ∈ a.positions, q < commands.length)

include hindexes hnodup he hretries hlt

variable {once : List Added}

theorem share_eq (nc : Nat) (asking : Bool) :
    out.share given (blockEntries cIndexes commands m e) nc asking =
      ((sentAt (out.added.filter (·.meets m e)) nc asking).filter (within m e)).map
        (entryAt cIndexes commands) := by
  unfold DoResult.share
  rw [resent_eq hretries, filter_map, ← filter_sentAt]
  refine congrArg _ (filter_congr fun q hq => ?_)
  obtain ⟨a, ha, -, hqa⟩ := mem_sentAt.mp hq
  have hcommand := hlt a ha q hqa
  rw [Bool.eq_iff_iff, Function.comp_apply, decide_eq_true_eq, within, Bool.and_eq_true,
    decide_eq_true_eq, decide_eq_true_eq, blockEntries, map_map, mem_map]
  constructor
  · rintro ⟨q', hq', heq⟩
    rw [mem_range'_1] at hq'
    obtain rfl := entryAt_inj hnodup (by omega) (by omega) heq
    omega
  · intro h
    exact ⟨q, mem_range'_1.mpr (by omega), rfl⟩

omit hindexes hnodup he hretries hlt in
theorem entries_block (nc nc' : Nat) (mode : RedirectMode) (asking : Bool) :
    ((sentAt [.block nc mode m e] nc' asking).filter (within m e)).map (entryAt cIndexes commands) =
      if nc' = nc ∧ asking = decide (mode = .ask) then blockEntries cIndexes commands m e else [] := by
  have hblock : (range' m (e + 1 - m)).filter (within m e) = range' m (e + 1 - m) := by
    refine filter_eq_self.mpr fun q hq => ?_
    simp only [mem_range'_1, within, Bool.and_eq_true, decide_eq_true_eq] at hq ⊢
    omega
  have hgoes : (Added.block nc mode m e).goesTo nc' asking = true ↔
      nc' = nc ∧ asking = decide (mode = .ask) := decide_eq_true_iff
  rw [sentAt_singleton, ← if_congr hgoes rfl rfl]
  split
  · exact congrArg _ hblock
  · rfl

variable (honce : once = [] ∨ ∃ nc mode, once = [.block nc mode m e])

include honce

theorem whole_of_once (h : out.added.filter (·.meets m e) = once) :
    out.Whole given cIndexes commands m e := by
  rcases honce with rfl | ⟨nc, mode, rfl⟩
  · left
    intro nc asking
    rw [share_eq hindexes hnodup he hretries hlt, h]
    rfl
  · right
    obtain ⟨l₁, l₂, hadded, -⟩ := filter_eq_cons_iff.mp h
    refine ⟨nc, decide (mode = .ask), ?_, fun nc' asking => ?_⟩
    · have hgoes : (Added.block nc mode m e).goesTo nc (decide (mode = .ask)) = true :=
        decide_eq_true ⟨rfl, rfl⟩
      rw [resent_eq hretries, hadded, ← singleton_append, sentAt_append, sentAt_append,
        sentAt_singleton, if_pos hgoes, map_append, map_append, ← append_assoc]
      exact infix_append ..
    · rw [share_eq hindexes hnodup he hretries hlt, h, entries_block]

/-- The EXEC alone, behind the block or without it, is no whole block. -/
theorem not_whole_of_exec (hme : m < e) {mode : RedirectMode}
    (h : out.added.filter (·.meets m e) = once ++ [.single nc mode e delay]) :
    ¬ out.Whole given cIndexes commands m e := by
  -- the list that got the EXEC is longer than the block by one, or it has the EXEC only
  obtain ⟨front, hfront, hshare⟩ : ∃ front : List (Nat × Completed),
      (front.length = 0 ∨ front.length = e + 1 - m) ∧
      out.share given (blockEntries cIndexes commands m e) nc (decide (mode = .ask)) =
        front ++ [entryAt cIndexes commands e] := by
    have hgoes : (Added.single nc mode e delay).goesTo nc (decide (mode = .ask)) = true :=
      decide_eq_true ⟨rfl, rfl⟩
    have hexec : [e].filter (within m e) = [e] := by simp [within, Nat.le_of_lt hme]
    rw [share_eq hindexes hnodup he hretries hlt, h, sentAt_append, filter_append, map_append,
      sentAt_singleton, if_pos hgoes]
    refine ⟨_, ?_, congrArg _ (congrArg _ hexec)⟩
    rcases honce with rfl | ⟨nc', mode', rfl⟩
    · exact .inl rfl
    · rw [entries_block]
      split
      · exact .inr (by simp [blockEntries])
      · exact .inl rfl
  have hlen : (blockEntries cIndexes commands m e).length = e + 1 - m := by simp [blockEntries]
  intro hwhole
  rcases hwhole.share nc (decide (mode = .ask)) with hnone | hblock
  · have heq := congrArg length (hshare.symm.trans hnone)
    simp at heq
  · have heq := congrArg length (hshare.symm.trans hblock)
    rw [length_append, length_singleton, hlen] at heq
    omega

end Whole

/-- A transaction whose MULTI was answered OK goes into the retries as a whole or not at all, if and
only if the reply of its EXEC does not ask for sending the EXEC again. -/
theorem doresultfn_whole_iff (hinit : rd.hasInit = true) (hlen : resps.length = commands.length)
    (hindexes : cIndexes.length = commands.length) (hnodup : cIndexes.Nodup) {retries : Connretry}
    (h : doresultfn rd commands resps cIndexes retries = .ok out) {m e : Nat}
    (hb : Block commands m e)
    (hok : (resps.getD m {}).error = none ∧ (resps.getD m {}).val.string = lit "OK") :
    out.Whole retries cIndexes commands m e ↔ asksAgain rd commands resps e = false := by
  have hlt := hb.lt
  have he := lt_length_of_hit hb.exec
  have helen : e < resps.length := hlen ▸ he
  unfold doresultfn at h
  split at h <;> cases h
  next results added hloop =>
    replace hloop := looped_of_resultLoop hloop
    have hstart : ((({} : Scan).ei : Int)) ≤ m := by
      show (-1 : Int) ≤ m
      omega
    have hm : resendsAt rd commands resps m = false := by
      unfold resendsAt modeAt
      rw [hok.1]
      rfl
    have hpositions : ∀ a ∈ added, ∀ q ∈ a.positions, q < commands.length :=
      fun a ha q hq => hloop.positions_lt hlen ha hq
    obtain ⟨once, exec, honce, hexec, hfilter⟩ :=
      hloop.block_once hb helen hinit hok.2 hm (Nat.zero_le e) hstart
    rw [← resendsAt_eq (hloop.modes (Nat.zero_le e) helen)]
    rcases hexec with ⟨hagain, rfl⟩ | ⟨hagain, nc, mode, delay, rfl⟩
    · exact iff_of_true (whole_of_once hindexes hnodup he rfl hpositions honce
        (hfilter.trans (append_nil once))) hagain
    · exact iff_of_false (not_whole_of_exec hindexes hnodup he rfl hpositions honce hlt hfilter)
        (by rw [hagain]; simp)

def replyOf (typ : UInt8) (text : String) : RedisResult :=
  newResult (RedisMessage.setString { typ := typ } (lit text)) none

def getCmd : Completed := { newCompleted [lit "GET", lit "k"] with cf := readonly }
def incrCmd : Completed := newCompleted [lit "INCR", lit "k"]

def firstRound : Round :=
  { retry := true, cc := 0, attempts := 1, hasInit := true, redirectOrNew := fun _ _ _ _ => 1,
    retryDelay := fun _ _ _ => 0, now := fun _ => {} }

theorem block_multi_get_exec : Block [multiCmd, getCmd, execCmd] 0 2 :=
  ⟨by decide, by decide, by decide, fun k hk hke => by
    obtain rfl : k = 1 := by omega
    decide⟩

def movedReplies : List RedisResult :=
  [replyOf typeSimpleString "OK", replyOf typeSimpleErr "MOVED 1 b:1",
    replyOf typeSimpleErr "EXECABORT"]

def movedResult : DoResult :=
  { clean := true
    results := movedReplies
    added := [.block 1 .move 0 2]
    retries := { m := [(1, { cIndexes := [0, 1, 2], commands := [multiCmd, getCmd, execCmd] })],
                 redirects := 1 } }

theorem doresultfn_whole_iff_moved :
    movedResult.Whole {} [0, 1, 2] [multiCmd, getCmd, execCmd] 0 2 := by
  have hrun : doresultfn firstRound [multiCmd, getCmd, execCmd] movedReplies [0, 1, 2] {} =
      .ok movedResult := by rfl
  exact (doresultfn_whole_iff (by rfl) (by rfl) (by rfl) (by decide) hrun block_multi_get_exec
    ⟨by decide, by decide⟩).mpr (by decide)

/-- A redirection of the EXEC itself sends the EXEC alone to the other node. -/
theorem moved_exec_is_sent_alone :
    ∃ out, doresultfn firstRound [multiCmd, getCmd, execCmd]
        [replyOf typeSimpleString "OK", replyOf typeSimpleString "QUEUED",
          replyOf typeSimpleErr "MOVED 1 b:1"] [0, 1, 2] {} = .ok out ∧
      out.retries.m = [(1, { cIndexes := [2], commands := [execCmd] })] ∧
      ¬ out.Whole {} [0, 1, 2] [multiCmd, getCmd, execCmd] 0 2 := by
  refine ⟨_, rfl, rfl, ?_⟩
  exact fun hwhole => absurd (hwhole.share 1 false) (by decide)

end Rueidis
