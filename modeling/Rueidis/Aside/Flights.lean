import Rueidis.Aside.Model
import Rueidis.Library.History
import Rueidis.Library.Machine
import Rueidis.Library.Threads

/-!
# Flights

A flight has a number, and numbers grow.  One `Get` leads a flight; the commands of the flights of one
client for one key are issued, and hence executed, in the order of the flights.
-/

namespace Rueidis.Aside

open List Option Get Threads

/-! ## What a Get can do -/

variable {client f : Nat} {s' : System}

def Pc.leads : Pc → Option Nat
  | .keepalive f | .marking f _ _ | .marked f _ | .ready f _ | .acquiring f _ _ | .running f _
  | .storing f _ _ _ | .cleaning f _ | .deleting f _ | .finishing f _ => some f
  | .reading | .following _ | .checking _ | .removing _ | .waiting | .returned => none

inductive Moves (rand : Nat → Bytes) (s : System) (g : Get) : GetAct → Pc → Change → Prop where
  | apart (x : GetAct) (pc : Pc) (hpc : g.pc.leads = none) (hpc' : pc.leads = none) :
      Moves rand s g x pc .none
  | lead (hpc : g.pc.leads = none) (hflight : s.flights g.client g.key = none) :
      Moves rand s g (.read .nil) (.keepalive s.next) .lead
  | own (x : GetAct) (f : Nat) (id : Bytes) (hpc : g.pc.leads = some f)
      (hid : s.id g.client = some id) : Moves rand s g x (.ready f id) .none
  | newId (f : Nat) (hpc : g.pc.leads = some f) :
      Moves rand s g .keepalive (.marking f (marker rand s.owners.length) s.next) .newId
  | keepId (f : Nat) (id : Bytes) (hpc : g.pc = .marked f id) :
      Moves rand s g .mark (.ready f id) (.keepId id)
  | acquire (f : Nat) (id : Bytes) (hpc : g.pc = .ready f id) :
      Moves rand s g .acquire (.acquiring f id s.next) (.issue (.acquire f g.key id))
  | store (f : Nat) (id val : Bytes) (hpc : g.pc = .running f id) :
      Moves rand s g (.fnReturn (some val)) (.storing f id s.next val) (.issue (.setkey f g.key id val))
  | back (x : GetAct) (pc : Pc) (f : Nat) (hpc : g.pc.leads = some f)
      (hpc' : pc = .finishing f .failed ∨ ∃ id, pc = .cleaning f id) : Moves rand s g x pc .none
  | cleanup (f : Nat) (id : Bytes) (hpc : g.pc.leads = some f) :
      Moves rand s g .cleanup (.deleting f s.next) (.issue (.delkey g.key id))
  | finish (pc : Pc) (f : Nat) (hpc : g.pc.leads = some f) (hpc' : pc.leads = none) :
      Moves rand s g .finish pc .finish
  | remove (val : Bytes) (hpc : g.pc.leads = none) :
      Moves rand s g (.check .nil) (.removing s.next) (.issue (.delkey g.key val))

theorem leads_ofValue (val : Bytes) : (Pc.ofValue val).leads = none := by
  unfold Pc.ofValue
  split <;> rfl

section Moves

variable {rand : Nat → Bytes} {s s' : System} {g : Get} {x : GetAct} {pc : Pc} {ch : Change}

theorem moves_of_step (h : g.step (s.id g.client) (s.flights g.client g.key)
    (marker rand s.owners.length) s.next x = some (pc, ch)) : Moves rand s g x pc ch := by
  obtain ⟨client, key, hasFn, pc₀⟩ := g
  cases x <;> dsimp only [step] at h
  case read r =>
    obtain ⟨rfl, h⟩ := ite_none_right_eq_some.mp h
    cases r with
    | nil =>
      dsimp only at h
      split at h
      · cases hflight : s.flights client key <;> rw [hflight] at h <;> cases h
        · exact .lead rfl hflight
        · exact .apart _ _ rfl rfl
      · cases h
        exact .apart _ _ rfl rfl
    | value val =>
      cases h
      exact .apart _ _ rfl (leads_ofValue val)
    | failed =>
      cases h
      exact .apart _ _ rfl rfl
  case wake =>
    split at h
    · split at h <;> cases h
      exact .apart _ _ rfl rfl
    · cases h
  case giveUp => split at h <;> cases h <;> exact .apart _ _ rfl rfl
  case keepalive =>
    split at h
    next f =>
      cases hid : s.id client <;> rw [hid] at h <;> cases h
      · exact .newId f rfl
      · exact .own _ f _ rfl hid
    · cases h
  case mark =>
    split at h
    next f id =>
      cases hid : s.id client <;> rw [hid] at h <;> cases h
      · exact .keepId f id rfl
      · exact .own _ f _ rfl hid
    · cases h
  case acquire =>
    split at h <;> cases h
    exact .acquire _ _ rfl
  case fail =>
    split at h <;> cases h
    · exact .back _ _ _ rfl (.inl rfl)
    · exact .back _ _ _ rfl (.inr ⟨_, rfl⟩)
    · exact .back _ _ _ rfl (.inr ⟨_, rfl⟩)
    · exact .back _ _ _ rfl (.inl rfl)
    · exact .apart _ _ rfl rfl
  case fnReturn r =>
    split at h
    · cases r <;> cases h
      · exact .back _ _ _ rfl (.inr ⟨_, rfl⟩)
      · exact .store _ _ _ rfl
    · cases h
  case cleanup =>
    split at h <;> cases h
    exact .cleanup _ _ rfl
  case finish =>
    split at h <;> cases h
    · exact .finish _ _ rfl (leads_ofValue _)
    · exact .finish _ _ rfl rfl
  case check r =>
    split at h
    · cases r <;> cases h
      · exact .remove _ rfl
      · exact .apart _ _ rfl rfl
      · exact .apart _ _ rfl rfl
    · cases h
  case resume =>
    obtain ⟨rfl, h⟩ := ite_none_right_eq_some.mp h
    cases h
    exact .apart _ _ rfl rfl

theorem step_act {t : Nat} (h : s.step rand (.act t x) = some s') :
    ∃ g pc ch, s.gets[t]? = some g ∧ Moves rand s g x pc ch ∧
      s' = { s.change rand g.client g.key ch with gets := s.gets.set t { g with pc } } := by
  unfold System.step at h
  dsimp only at h
  split at h
  · cases h
  next g hg =>
  split at h
  · cases h
  next pc ch hstep => exact ⟨g, pc, ch, hg, moves_of_step hstep, (some.inj h).symm⟩

end Moves

/-! ## Lines -/

def Event.ticket (client : Nat) (key : Bytes) : Event → Option Nat
  | .acquired c f k _ => if c = client ∧ k = key then some f else none
  | _ => none

def Op.ticket (key : Bytes) : Op → Option Nat
  | .acquire f k _ | .setkey f k _ _ => if k = key then some f else none
  | _ => none

/-- The flights of a client for a key: those that got their placeholder, then those with a command
that is not executed yet. -/
def System.line (s : System) (client : Nat) (key : Bytes) : List Nat :=
  s.redis.log.filterMap (Event.ticket client key) ++
    (s.queue client).filterMap (·.op.ticket key)

section Lines

variable {s : System} {c : Nat} {key : Bytes} {cmd : Command}

theorem queue_issue (s : System) (client : Nat) (op : Op) :
    (s.issue client op).queue c =
      if c = client then s.queue client ++ [⟨s.next, op⟩] else s.queue c := rfl

theorem mem_queue_issue {op : Op} (h : cmd ∈ (s.issue client op).queue c) :
    cmd ∈ s.queue c ∨ (c = client ∧ cmd = ⟨s.next, op⟩) := by
  rw [queue_issue] at h
  split at h
  · rename_i hc
    subst hc
    rcases mem_append.mp h with hold | hnew
    · exact .inl hold
    · exact .inr ⟨rfl, mem_singleton.mp hnew⟩
  · exact .inl h

theorem line_issue (client : Nat) (op : Op) :
    (s.issue client op).line c key =
      s.line c key ++ if c = client then (op.ticket key).toList else [] := by
  have hone : [(⟨s.next, op⟩ : Command)].filterMap (·.op.ticket key) = (op.ticket key).toList := by
    rw [filterMap_cons]
    cases op.ticket key <;> rfl
  unfold System.line
  rw [queue_issue]
  by_cases hc : c = client
  · subst hc
    rw [if_pos rfl, if_pos rfl, filterMap_append, hone, append_assoc]
    rfl
  · rw [if_neg hc, if_neg hc, append_nil]
    rfl

theorem ticket_run (c : Nat) (key : Bytes) (op : Op) (client : Nat) (r : Redis) :
    ((op.run client r).log.filterMap (Event.ticket c key)).Sublist
      (r.log.filterMap (Event.ticket c key) ++ if c = client then (op.ticket key).toList else []) := by
  have hkeep : (r.log.filterMap (Event.ticket c key)).Sublist
      (r.log.filterMap (Event.ticket c key) ++
        if c = client then (op.ticket key).toList else []) := sublist_append_left _ _
  have hsnoc : ∀ k val e, Event.ticket c key e = none →
      ((r.change k val e).log.filterMap (Event.ticket c key)).Sublist
        (r.log.filterMap (Event.ticket c key) ++
          if c = client then (op.ticket key).toList else []) := by
    intro k val e he
    change ((r.log ++ [e]).filterMap (Event.ticket c key)).Sublist _
    rw [filterMap_append, filterMap_cons, he, filterMap_nil, append_nil]
    exact hkeep
  cases op with
  | acquire f k id =>
    unfold Op.run
    dsimp only
    split
    · change ((r.log ++ [Event.acquired client f k id]).filterMap (Event.ticket c key)).Sublist _
      rw [filterMap_append]
      apply Sublist.append_left
      -- the flight leaves the queue and enters the log
      have heq : [Event.acquired client f k id].filterMap (Event.ticket c key) =
          if c = client then ((Op.acquire f k id).ticket key).toList else [] := by
        by_cases hc : c = client
        · subst hc
          by_cases hk : k = key <;> simp [Event.ticket, Op.ticket, hk]
        · simp [Event.ticket, hc, Ne.symm hc]
      rw [heq]
    · exact hkeep
  | setkey f k id val | delkey k id =>
    unfold Op.run
    dsimp only
    split
    · exact hsnoc _ _ _ rfl
    · exact hkeep
  | set k val | del k => exact hsnoc _ _ _ rfl

theorem line_exec {rest : List Command} (hqueue : s.queue client = cmd :: rest) (gets : List Get) :
    (System.line { s with
      redis := cmd.op.run client s.redis
      queue := s.setQueue client rest
      gets := gets } c key).Sublist (s.line c key) := by
  have hrun := ticket_run c key cmd.op client s.redis
  unfold System.line System.setQueue
  dsimp only
  by_cases hc : c = client
  · subst hc
    rw [if_pos rfl] at hrun ⊢
    rw [hqueue]
    have hcons : (cmd :: rest).filterMap (·.op.ticket key) =
        (cmd.op.ticket key).toList ++ rest.filterMap (·.op.ticket key) := by
      rw [filterMap_cons]
      cases cmd.op.ticket key <;> rfl
    rw [hcons, ← append_assoc]
    exact hrun.append_right _
  · rw [if_neg hc] at hrun ⊢
    rw [append_nil] at hrun
    exact hrun.append_right _

theorem line_lose (client i : Nat) :
    (System.line { s with queue := s.setQueue client ((s.queue client).eraseIdx i) } c key).Sublist
      (s.line c key) := by
  unfold System.line System.setQueue
  dsimp only
  apply Sublist.append_left
  by_cases hc : c = client
  · subst hc
    rw [if_pos rfl]
    exact (eraseIdx_sublist _ _).filterMap _
  · rw [if_neg hc]

theorem line_changed (k : Bytes) (val : Option Bytes) :
    System.line { s with redis := s.redis.change k val (.changed k) } c key = s.line c key := by
  unfold System.line
  change (s.redis.log ++ [Event.changed k]).filterMap _ ++ _ = _
  rw [filterMap_append]
  change _ ++ [] ++ _ = _
  rw [append_nil]

end Lines

/-! ## The invariant of the clients -/

def System.Owned (rand : Nat → Bytes) (s : System) (id : Bytes) (client : Nat) : Prop :=
  ∃ n : Nat, id = marker rand n ∧ s.owners[n]? = some client

def Op.Valid (rand : Nat → Bytes) (s : System) (client : Nat) : Op → Prop
  | .acquire _ _ id => s.Owned rand id client
  | .setkey f key id val =>
    Event.acquired client f key id ∈ s.redis.log ∧ ∀ n, val ≠ marker rand n
  | .set _ val => ∀ n, val ≠ marker rand n
  | _ => True

def Pc.id : Pc → Option Bytes
  | .marking _ id _ | .marked _ id | .ready _ id | .acquiring _ id _ | .running _ id => some id
  | _ => none

structure Get.Valid (rand : Nat → Bytes) (s : System) (g : Get) : Prop where
  leads : ∀ f, g.pc.leads = some f → s.flights g.client g.key = some f
  owned : ∀ id, g.pc.id = some id → s.Owned rand id g.client
  running : ∀ f id, g.pc = .running f id → Event.acquired g.client f g.key id ∈ s.redis.log
  acquiring : ∀ f id n, g.pc = .acquiring f id n → n < s.next ∧
    ∀ c, ∀ cmd ∈ s.queue c, cmd.n = n → c = g.client ∧ cmd.op = .acquire f g.key id

structure System.Queued (rand : Nat → Bytes) (s : System) : Prop where
  own : ∀ c id, s.id c = some id → s.Owned rand id c
  flight : ∀ c k f, s.flights c k = some f → f < s.next
  number : ∀ c, ∀ cmd ∈ s.queue c, cmd.n < s.next
  op : ∀ c, ∀ cmd ∈ s.queue c, cmd.op.Valid rand s c
  line : ∀ c k, (s.line c k).Pairwise (· ≤ ·)
  bound : ∀ c k, ∀ f ∈ s.line c k, f < s.next ∧ ∀ q, s.flights c k = some q → f ≤ q

structure System.Led (rand : Nat → Bytes) (s : System) : Prop where
  get : ∀ g ∈ s.gets, g.Valid rand s
  leader : ∀ (t t' : Nat) (g g' : Get) (f : Nat), s.gets[t]? = some g → s.gets[t']? = some g' →
    g.pc.leads = some f → g'.pc.leads = some f → t = t'

structure Grows (rand : Nat → Bytes) (s s' : System) : Prop where
  owned : ∀ id c, s.Owned rand id c → s'.Owned rand id c
  log : ∀ e ∈ s.redis.log, e ∈ s'.redis.log
  next : s.next ≤ s'.next
  queue : ∀ c, ∀ cmd ∈ s'.queue c, cmd ∈ s.queue c ∨ s.next ≤ cmd.n

section Grows

variable {rand : Nat → Bytes} {s s' : System} {g : Get} {op : Op} {c : Nat}

theorem Op.Valid.mono (h : op.Valid rand s c) (hgrows : Grows rand s s') : op.Valid rand s' c := by
  cases op with
  | acquire f key id => exact hgrows.owned id c h
  | setkey f key id val => exact ⟨hgrows.log _ h.1, h.2⟩
  | set key val => exact h
  | delkey key id | del key => trivial

theorem Get.Valid.mono (h : g.Valid rand s) (hgrows : Grows rand s s')
    (hflight : ∀ f, g.pc.leads = some f → s'.flights g.client g.key = s.flights g.client g.key) :
    g.Valid rand s' := by
  refine ⟨?_, ?_, ?_, ?_⟩
  · intro f hf
    rw [hflight f hf]
    exact h.leads f hf
  · intro id hid
    exact hgrows.owned id _ (h.owned id hid)
  · intro f id hpc
    exact hgrows.log _ (h.running f id hpc)
  · intro f id n hpc
    obtain ⟨hlt, hown⟩ := h.acquiring f id n hpc
    refine ⟨Nat.lt_of_lt_of_le hlt hgrows.next, ?_⟩
    intro c cmd hcmd hn
    rcases hgrows.queue c cmd hcmd with hold | hnew
    · exact hown c cmd hold hn
    · omega

theorem Get.Valid.setGets (h : g.Valid rand s) (gets : List Get) :
    g.Valid rand { s with gets := gets } :=
  { h with }

theorem grows_of_eq (howners : s'.owners = s.owners) (hredis : s'.redis = s.redis)
    (hnext : s.next ≤ s'.next) (hqueue : s'.queue = s.queue) : Grows rand s s' where
  owned := by
    unfold System.Owned
    rw [howners]
    exact fun _ _ h => h
  log := hredis ▸ fun _ h => h
  next := hnext
  queue := hqueue ▸ fun _ _ h => .inl h

theorem grows_issue (client : Nat) (op : Op) : Grows rand s (s.issue client op) := by
  refine ⟨fun _ _ h => h, fun _ h => h, Nat.le_succ _, ?_⟩
  intro c cmd hcmd
  rcases mem_queue_issue hcmd with hold | ⟨-, rfl⟩
  · exact .inl hold
  · exact .inr (Nat.le_refl _)

theorem log_run_subset (r : Redis) (client : Nat) (op : Op) :
    ∀ e ∈ r.log, e ∈ (op.run client r).log := by
  intro e he
  have hsnoc : ∀ k val e', e ∈ (r.change k val e').log := fun _ _ _ => mem_append_left _ he
  cases op with
  | acquire | setkey | delkey =>
    unfold Op.run
    dsimp only
    split
    · exact hsnoc _ _ _
    · exact he
  | set | del => exact hsnoc _ _ _

end Grows

/-! ## Steps of the queues -/

section Queued

variable {rand : Nat → Bytes} {s : System} {g : Get} {x : GetAct} {pc : Pc} {ch : Change}

variable (h : s.Queued rand)

include h

theorem System.Queued.issue {op : Op} (hop : op.Valid rand s client)
    (hticket : ∀ k f, op.ticket k = some f → s.flights client k = some f) :
    (s.issue client op).Queued rand := by
  have hgrows : Grows rand s (s.issue client op) := grows_issue client op
  have hnew : ∀ c k f, f ∈ (if c = client then (op.ticket k).toList else []) →
      s.flights c k = some f := by
    intro c k f hf
    split at hf
    · rename_i hc
      subst hc
      exact hticket k f (mem_toList.mp hf)
    · cases hf
  refine ⟨h.own, ?_, ?_, ?_, ?_, ?_⟩
  · intro c k f hf
    exact Nat.lt_succ_of_lt (h.flight c k f hf)
  · intro c cmd hcmd
    rcases mem_queue_issue hcmd with hold | ⟨-, rfl⟩
    · exact Nat.lt_succ_of_lt (h.number c cmd hold)
    · exact Nat.lt_succ_self _
  · intro c cmd hcmd
    rcases mem_queue_issue hcmd with hold | ⟨rfl, rfl⟩
    · exact (h.op c cmd hold).mono hgrows
    · exact hop.mono hgrows
  · intro c k
    rw [line_issue]
    refine pairwise_append.mpr ⟨h.line c k, ?_, ?_⟩
    · split
      · cases op.ticket k with
        | none => exact Pairwise.nil
        | some f => exact pairwise_singleton _ _
      · exact Pairwise.nil
    · intro q hq f hf
      exact (h.bound c k q hq).2 f (hnew c k f hf)
  · intro c k f hf
    rw [line_issue] at hf
    rcases mem_append.mp hf with hold | hnew'
    · obtain ⟨hlt, hle⟩ := h.bound c k f hold
      exact ⟨Nat.lt_succ_of_lt hlt, hle⟩
    · have hflight := hnew c k f hnew'
      refine ⟨Nat.lt_succ_of_lt (h.flight c k f hflight), ?_⟩
      intro q hq
      exact Nat.le_of_eq (some.inj (hflight.symm.trans hq))

theorem System.Queued.shrink (hgrows : Grows rand s s')
    (hown : ∀ c id, s'.id c = some id → s'.Owned rand id c)
    (hflights : ∀ c k f, s'.flights c k = some f → s.flights c k = some f)
    (hqueue : ∀ c, ∀ cmd ∈ s'.queue c, cmd ∈ s.queue c)
    (hline : ∀ c k, (s'.line c k).Sublist (s.line c k)) : s'.Queued rand where
  own := hown
  flight := fun c k f hf => Nat.lt_of_lt_of_le (h.flight c k f (hflights c k f hf)) hgrows.next
  number := fun c cmd hcmd => Nat.lt_of_lt_of_le (h.number c cmd (hqueue c cmd hcmd)) hgrows.next
  op := fun c cmd hcmd => (h.op c cmd (hqueue c cmd hcmd)).mono hgrows
  line := fun c k => (h.line c k).sublist (hline c k)
  bound := by
    intro c k f hf
    obtain ⟨hlt, hle⟩ := h.bound c k f ((hline c k).subset hf)
    exact ⟨Nat.lt_of_lt_of_le hlt hgrows.next, fun q hq => hle q (hflights c k q hq)⟩

theorem System.Queued.lead (client : Nat) (key : Bytes) :
    System.Queued rand
      { s with flights := s.setFlight client key (some s.next), next := s.next + 1 } := by
  refine ⟨h.own, ?_, ?_, ?_, h.line, ?_⟩
  · intro c k f hf
    change (if c = client ∧ k = key then some s.next else s.flights c k) = some f at hf
    split at hf
    · rw [← some.inj hf]
      exact Nat.lt_succ_self _
    · exact Nat.lt_succ_of_lt (h.flight c k f hf)
  · intro c cmd hcmd
    exact Nat.lt_succ_of_lt (h.number c cmd hcmd)
  · intro c cmd hcmd
    exact (h.op c cmd hcmd).mono (grows_of_eq rfl rfl (Nat.le_succ _) rfl)
  · intro c k f hf
    obtain ⟨hlt, hle⟩ := h.bound c k f hf
    refine ⟨Nat.lt_succ_of_lt hlt, ?_⟩
    intro q hq
    change (if c = client ∧ k = key then some s.next else s.flights c k) = some q at hq
    split at hq
    · rw [← some.inj hq]
      exact Nat.le_of_lt hlt
    · exact hle q hq

theorem System.Queued.finish (client : Nat) (key : Bytes) :
    System.Queued rand { s with flights := s.setFlight client key none } := by
  refine h.shrink (grows_of_eq rfl rfl (Nat.le_refl _) rfl) h.own (fun c k f hf => ?_)
    (fun _ _ h => h) fun _ _ => Sublist.refl _
  change (if c = client ∧ k = key then none else s.flights c k) = some f at hf
  split at hf
  · cases hf
  · exact hf

omit h

theorem System.Owned.append {id : Bytes} {c : Nat} (h : s.Owned rand id c) (client : Nat) :
    System.Owned rand { s with owners := s.owners ++ [client] } id c := by
  obtain ⟨n, hid, hn⟩ := h
  exact ⟨n, hid, (History.getElem?_snoc_iff ..).mpr (.inl hn)⟩

theorem grows_owners (client : Nat) : Grows rand s { s with owners := s.owners ++ [client] } :=
  ⟨fun _ _ h => h.append client, fun _ h => h, Nat.le_refl _, fun _ _ h => .inl h⟩

theorem System.Queued.owners (h : s.Queued rand) (client : Nat) :
    System.Queued rand { s with owners := s.owners ++ [client] } :=
  h.shrink (grows_owners client) (fun c id hid => (h.own c id hid).append client) (fun _ _ _ h => h)
    (fun _ _ h => h) fun _ _ => Sublist.refl _

theorem marker_ne_nil (n : Nat) : [] ≠ marker rand n := by
  intro h
  cases h

theorem System.Queued.keepId (h : s.Queued rand) {id : Bytes} (hid : s.Owned rand id client) :
    System.Queued rand { s with id := s.setId client (some id) } := by
  refine h.shrink (grows_of_eq rfl rfl (Nat.le_refl _) rfl) (fun c id' hc => ?_) (fun _ _ _ h => h)
    (fun _ _ h => h) fun _ _ => Sublist.refl _
  change (if c = client then some id else s.id c) = some id' at hc
  split at hc
  next heq =>
    rw [heq, ← some.inj hc]
    exact hid
  · exact h.own c id' hc

/-- The step of a `Get` keeps the order; values that `fn` returns are no marker ids. -/
theorem System.Queued.change (h : s.Queued rand) (hg : g.Valid rand s) (hm : Moves rand s g x pc ch)
    (hclean : ∀ val, x = .fnReturn (some val) → ∀ n, val ≠ marker rand n) :
    (s.change rand g.client g.key ch).Queued rand := by
  have hticket : ∀ f, g.pc.leads = some f → ∀ k q, (if g.key = k then some f else none) = some q →
      s.flights g.client k = some q := by
    intro f hf k q hk
    obtain ⟨rfl, hq⟩ := ite_none_right_eq_some.mp hk
    cases hq
    exact hg.leads f hf
  cases hm with
  | apart | own | back => exact h
  | lead => exact h.lead _ _
  | newId =>
    have hvalid : Op.Valid rand s g.client (.set (marker rand s.owners.length) []) := marker_ne_nil
    exact (h.issue hvalid (fun _ _ hk => by cases hk)).owners _
  | keepId f id hpc => exact h.keepId (hg.owned id (by rw [hpc]; rfl))
  | acquire f id hpc =>
    exact h.issue (hg.owned id (by rw [hpc]; rfl)) (hticket f (by rw [hpc]; rfl))
  | store f id val hpc =>
    exact h.issue ⟨hg.running f id hpc, hclean val rfl⟩ (hticket f (by rw [hpc]; rfl))
  | cleanup | remove => exact h.issue trivial (fun _ _ hk => by cases hk)
  | finish => exact h.finish _ _

end Queued

/-! ## Steps of the leaders -/

section Led

variable {rand : Nat → Bytes} {s : System} {g g' : Get} {x : GetAct} {pc : Pc} {ch : Change}
  {t t' : Nat}

theorem Moves.leads_cases (hm : Moves rand s g x pc ch) :
    pc.leads = none ∨ pc.leads = g.pc.leads ∨ pc.leads = some s.next := by
  cases hm with
  | apart _ _ _ hpc' => exact .inl hpc'
  | lead => exact .inr (.inr rfl)
  | own _ f id hpc | newId f hpc | cleanup f id hpc => exact .inr (.inl hpc.symm)
  | keepId f id hpc | acquire f id hpc | store f id _ hpc =>
    rw [hpc]
    exact .inr (.inl rfl)
  | back _ _ f hpc hpc' =>
    rcases hpc' with rfl | ⟨id, rfl⟩ <;> exact .inr (.inl hpc.symm)
  | finish _ f _ hpc' => exact .inl hpc'
  | remove => exact .inl rfl

theorem grows_change (s : System) (client : Nat) (key : Bytes) (ch : Change) :
    Grows rand s (s.change rand client key ch) := by
  cases ch with
  | none | finish | keepId => exact grows_of_eq rfl rfl (Nat.le_refl _) rfl
  | issue op => exact grows_issue client op
  | lead => exact grows_of_eq rfl rfl (Nat.le_succ _) rfl
  | newId =>
    have hissue : Grows rand s (s.issue client (.set (marker rand s.owners.length) [])) :=
      grows_issue client _
    exact { hissue with owned := fun id c h => h.append client }

theorem System.Led.flights_change (h : s.Led rand) (hm : Moves rand s g x pc ch)
    (ht : s.gets[t]? = some g) (ht' : s.gets[t']? = some g') (hne : t ≠ t')
    (hleads : g'.pc.leads = some f) :
    (s.change rand g.client g.key ch).flights g'.client g'.key = s.flights g'.client g'.key := by
  have hflight := (h.get g' (mem_of_getElem? ht')).leads f hleads
  cases hm with
  | lead hpc hnone =>
    change (if g'.client = g.client ∧ g'.key = g.key then _ else _) = _
    rw [if_neg]
    rintro ⟨hc, hk⟩
    rw [hc, hk, hnone] at hflight
    cases hflight
  | finish pc f' hpc hpc' =>
    change (if g'.client = g.client ∧ g'.key = g.key then _ else _) = _
    rw [if_neg]
    rintro ⟨hc, hk⟩
    -- two leaders of one flight
    rw [hc, hk, (h.get g (mem_of_getElem? ht)).leads f' hpc] at hflight
    rw [some.inj hflight] at hpc
    exact hne (h.leader t t' g g' f ht ht' hpc hleads)
  | _ => rfl

theorem Get.valid_of_leads_none (hpc : g.pc.leads = none) : g.Valid rand s := by
  obtain ⟨client, key, hasFn, pc⟩ := g
  cases pc with
  | reading | following | checking | removing | waiting | returned =>
    exact ⟨nofun, nofun, nofun, nofun⟩
  | _ => cases hpc

theorem Get.valid_of_leads (hpc : g.pc.leads = some f) (hflight : s.flights g.client g.key = some f)
    (howned : ∀ id, g.pc.id = some id → s.Owned rand id g.client)
    (hrunning : ∀ f id, g.pc ≠ .running f id) (hacquiring : ∀ f id n, g.pc ≠ .acquiring f id n) :
    g.Valid rand s := by
  refine ⟨?_, howned, fun f' id h => absurd h (hrunning f' id),
    fun f' id n h => absurd h (hacquiring f' id n)⟩
  intro f' hf
  rw [hpc] at hf
  rw [← some.inj hf]
  exact hflight

theorem Moves.valid (hq : s.Queued rand) (hg : g.Valid rand s) (hm : Moves rand s g x pc ch) :
    Get.Valid rand (s.change rand g.client g.key ch) { g with pc } := by
  cases hm with
  | apart x pc hpc hpc' => exact valid_of_leads_none hpc'
  | lead hpc hnone => exact valid_of_leads rfl (if_pos ⟨rfl, rfl⟩) nofun nofun nofun
  | own x f id hpc hid =>
    refine valid_of_leads rfl (hg.leads f hpc) (fun _ h => ?_) nofun nofun
    cases h
    exact hq.own _ id hid
  | newId f hpc =>
    refine valid_of_leads rfl (hg.leads f hpc) (fun _ h => ?_) nofun nofun
    cases h
    exact ⟨s.owners.length, rfl, getElem?_concat_length⟩
  | keepId f id hpc =>
    refine valid_of_leads rfl (hg.leads f (by rw [hpc]; rfl)) (fun _ h => ?_) nofun nofun
    cases h
    exact hg.owned id (by rw [hpc]; rfl)
  | acquire f id hpc =>
    refine ⟨?_, ?_, nofun, ?_⟩
    · intro f' hf
      cases hf
      exact hg.leads f (by rw [hpc]; rfl)
    · intro id' hid
      cases hid
      exact hg.owned id (by rw [hpc]; rfl)
    · intro f' id' n hacquiring
      cases hacquiring
      refine ⟨Nat.lt_succ_self _, ?_⟩
      -- its command is the only one with the new number
      intro c cmd hcmd hn
      rcases mem_queue_issue hcmd with hold | ⟨rfl, rfl⟩
      · exact absurd hn (Nat.ne_of_lt (hq.number c cmd hold))
      · exact ⟨rfl, rfl⟩
  | store f id val hpc =>
    exact valid_of_leads rfl (hg.leads f (by rw [hpc]; rfl)) nofun nofun nofun
  | back x pc f hpc hpc' =>
    rcases hpc' with rfl | ⟨id, rfl⟩ <;>
      exact valid_of_leads rfl (hg.leads f hpc) nofun nofun nofun
  | cleanup f id hpc => exact valid_of_leads rfl (hg.leads f hpc) nofun nofun nofun
  | finish pc f hpc hpc' => exact valid_of_leads_none hpc'
  | remove val hpc => exact valid_of_leads_none rfl

theorem System.Led.act (h : s.Led rand) (hq : s.Queued rand) (hm : Moves rand s g x pc ch)
    (ht : s.gets[t]? = some g) :
    System.Led rand { s.change rand g.client g.key ch with gets := s.gets.set t { g with pc } } := by
  have hg := h.get g (mem_of_getElem? ht)
  constructor
  · intro b hb
    obtain ⟨u, hu⟩ := mem_iff_getElem?.mp hb
    rcases of_getElem?_set hu with ⟨-, rfl⟩ | ⟨hut, hu⟩
    · exact (hm.valid hq hg).setGets _
    · have hvalid := (h.get b (mem_of_getElem? hu)).mono (grows_change s g.client g.key ch)
        (fun f hf => h.flights_change hm ht hu hut.symm hf)
      exact hvalid.setGets _
  · -- a new leader leads a new flight
    have hother : ∀ {u : Nat} {b : Get} {f : Nat}, s.gets[u]? = some b → pc.leads = some f →
        b.pc.leads = some f → t = u := by
      intro u b f hu hpc hb
      rcases hm.leads_cases with hnone | hsame | hnext
      · rw [hnone] at hpc
        cases hpc
      · exact h.leader t u g b f ht hu (hsame ▸ hpc) hb
      · rw [hnext] at hpc
        have hflight := (h.get b (mem_of_getElem? hu)).leads f hb
        have hlt' := hq.flight _ _ f hflight
        rw [← some.inj hpc] at hlt'
        exact absurd hlt' (Nat.lt_irrefl _)
    intro u v b b' f hu hv hb hb'
    rcases of_getElem?_set hu with ⟨rfl, rfl⟩ | ⟨-, hu'⟩
    · rcases of_getElem?_set hv with ⟨rfl, -⟩ | ⟨-, hv'⟩
      · rfl
      · exact hother hv' hb hb'
    · rcases of_getElem?_set hv with ⟨rfl, rfl⟩ | ⟨-, hv'⟩
      · exact (hother hu' hb' hb).symm
      · exact h.leader u v b b' f hu' hv' hb hb'

theorem System.Led.mono (h : s.Led rand) (hgrows : Grows rand s s')
    (hflights : s'.flights = s.flights) (hgets : s'.gets = s.gets) : s'.Led rand := by
  constructor <;> rw [hgets]
  · exact fun b hb => (h.get b hb).mono hgrows fun _ _ => by rw [hflights]
  · exact h.leader

theorem System.Led.get_call (h : s.Led rand) (client : Nat) (key : Bytes) (hasFn : Bool) :
    System.Led rand { s with gets := s.gets ++ [⟨client, key, hasFn, .reading⟩] } := by
  have hold : ∀ {u : Nat} {b : Get} {f : Nat},
      (s.gets ++ [⟨client, key, hasFn, .reading⟩])[u]? = some b → b.pc.leads = some f →
      s.gets[u]? = some b := by
    intro u b f hu hb
    rcases (History.getElem?_snoc_iff ..).mp hu with hu | ⟨-, rfl⟩
    · exact hu
    · cases hb
  constructor
  · exact forall_mem_append.mpr ⟨fun b hb => (h.get b hb).setGets _,
      forall_mem_singleton.mpr (valid_of_leads_none rfl)⟩
  · intro u v b b' f hu hv hb hb'
    exact h.leader u v b b' f (hold hu hb) (hold hv hb') hb hb'

end Led

/-! ## A command is executed -/

section Exec

variable {rand : Nat → Bytes} {s : System} {g : Get} {client : Nat} {cmd : Command}
  {rest : List Command}

theorem leads_deliver (pc : Pc) (n : Nat) (answer : Answer) :
    (pc.deliver n answer).leads = pc.leads := by
  cases pc with
  | acquiring f id m =>
    unfold Pc.deliver
    dsimp only
    split
    · cases answer <;> rfl
    · rfl
  | marking | storing | deleting | removing =>
    unfold Pc.deliver
    dsimp only
    split <;> rfl
  | _ => rfl

def System.execute (s : System) (client : Nat) (cmd : Command) (rest : List Command) : System :=
  { s with redis := cmd.op.run client s.redis, queue := s.setQueue client rest }

theorem mem_queue_execute (hqueue : s.queue client = cmd :: rest) {c : Nat} {cmd' : Command}
    (h : cmd' ∈ (s.execute client cmd rest).queue c) : cmd' ∈ s.queue c := by
  change cmd' ∈ (if c = client then rest else s.queue c) at h
  split at h
  next hc =>
    rw [hc, hqueue]
    exact mem_cons_of_mem _ h
  · exact h

theorem grows_execute (hqueue : s.queue client = cmd :: rest) :
    Grows rand s (s.execute client cmd rest) :=
  ⟨fun _ _ h => h, log_run_subset s.redis client cmd.op, Nat.le_refl _,
    fun _ _ h => .inl (mem_queue_execute hqueue h)⟩

theorem System.Queued.execute (h : s.Queued rand) (hqueue : s.queue client = cmd :: rest) :
    (s.execute client cmd rest).Queued rand :=
  h.shrink (grows_execute hqueue) h.own (fun _ _ _ h => h) (fun _ _ h => mem_queue_execute hqueue h)
    fun _ _ => line_exec hqueue s.gets

theorem acquired_of_nil {key id : Bytes} {r : Redis} (h : (Op.acquire f key id).answer r = .nil) :
    Event.acquired client f key id ∈ ((Op.acquire f key id).run client r).log := by
  unfold Op.answer at h
  unfold Op.run
  dsimp only at h ⊢
  cases hkey : r.store key with
  | none =>
    rw [if_pos rfl]
    exact mem_append_right _ (mem_singleton_self _)
  | some val =>
    rw [hkey] at h
    cases h

theorem Get.Valid.deliver (h : g.Valid rand s) (hqueue : s.queue client = cmd :: rest) :
    Get.Valid rand (s.execute client cmd rest)
      { g with pc := g.pc.deliver cmd.n (cmd.op.answer s.redis) } := by
  have hmono : g.Valid rand (s.execute client cmd rest) :=
    h.mono (grows_execute hqueue) (fun _ _ => rfl)
  obtain ⟨client', key, hasFn, pc⟩ := g
  -- only a `Get` that waits for this command goes on
  cases pc <;> dsimp only [Pc.deliver] <;> first | exact hmono | (split; rotate_left; exact hmono)
  case marking f id m hm => exact valid_of_leads rfl (hmono.leads f rfl) hmono.owned nofun nofun
  case acquiring f id m hm =>
    obtain ⟨rfl, hop⟩ := (h.acquiring f id m rfl).2 client cmd
      (by rw [hqueue]; exact mem_cons_self) hm.symm
    cases hanswer : cmd.op.answer s.redis with
    | nil =>
      refine ⟨fun f' hf => hmono.leads f' hf, fun id' hid => hmono.owned id' hid, ?_, nofun⟩
      intro f' id' hrunning
      cases hrunning
      change _ ∈ (cmd.op.run _ s.redis).log
      rw [hop] at hanswer ⊢
      exact acquired_of_nil hanswer
    | value val => exact valid_of_leads rfl (hmono.leads f rfl) nofun nofun nofun
  case storing f id m val hm => exact valid_of_leads rfl (hmono.leads f rfl) nofun nofun nofun
  case deleting f m hm => exact valid_of_leads rfl (hmono.leads f rfl) nofun nofun nofun
  case removing m hm => exact valid_of_leads_none rfl

theorem System.Led.deliver (h : s.Led rand) (hqueue : s.queue client = cmd :: rest) :
    System.Led rand { s.execute client cmd rest with
      gets := s.gets.map fun g => { g with pc := g.pc.deliver cmd.n (cmd.op.answer s.redis) } } := by
  constructor
  · intro b hb
    obtain ⟨g, hg, rfl⟩ := mem_map.mp hb
    exact ((h.get g hg).deliver hqueue).setGets _
  · intro u v b b' f hu hv hb hb'
    rw [getElem?_map, map_eq_some_iff] at hu hv
    obtain ⟨g, hg, rfl⟩ := hu
    obtain ⟨g', hg', rfl⟩ := hv
    rw [leads_deliver] at hb hb'
    exact h.leader u v g g' f hg hg' hb hb'

end Exec

end Rueidis.Aside
