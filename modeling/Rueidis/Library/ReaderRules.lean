import Rueidis.Library.ByteReader

/-!
# Rules for readers

Properties of readers that carry over from the parts of a sequence to the whole: that what was read
marks its own end, that more fuel changes nothing, and that the fuel is enough.

A caller may look at an error of a reader and go on: the errors it goes on from are `caught`.  The errors
of a stream that ends too early are `short`.
-/

namespace ByteReader

open List

variable {ε α β : Type}

def Settled (caught : ε → Prop) : Except ε α → Prop
  | .ok _ => True
  | .error e => caught e

def onOk (f : α → ByteReader ε β) : Except ε α → ByteReader ε β
  | .ok a => f a
  | .error e => fail e

theorem bind_eq_attempt_bind (x : ByteReader ε α) (f : α → ByteReader ε β) :
    x >>= f = attempt x >>= onOk f := by
  funext r
  match hxr : x r with
  | (.ok a, r') => rw [bind_ok hxr, attempt_bind hxr, onOk]
  | (.error e, r') =>
    rw [bind_error hxr, attempt_bind hxr]
    rfl

/-! ## Self-delimiting readers -/

variable {x y : ByteReader ε α} {f : Except ε α → ByteReader ε β} {d : UInt8} {r : List UInt8}
  {eof full e : ε} {caught : ε → Prop}

section Delimited

variable (caught short : ε → Prop)

/-- What the reader consumes before it settles decides the outcome: anything may follow, and nothing
may be missing. -/
def Delimited (x : ByteReader ε α) : Prop :=
  ∀ r o r', x r = (o, r') → Settled caught o →
    ∃ c, r = c ++ r' ∧ (∀ s, x (c ++ s) = (o, s)) ∧
      ∀ p, p <+: c → p ≠ c → ∃ e s, short e ∧ x p = (.error e, s)

variable {caught short}

theorem delimited_pure (a : α) : Delimited caught short (pure a : ByteReader ε α) := by
  intro r o r' h _
  cases h
  exact ⟨[], rfl, fun s => rfl, fun p hp hne => absurd (prefix_nil.mp hp) hne⟩

theorem delimited_fail (e : ε) : Delimited caught short (fail e : ByteReader ε α) := by
  intro r o r' h _
  cases h
  exact ⟨[], rfl, fun s => rfl, fun p hp hne => absurd (prefix_nil.mp hp) hne⟩

variable {p : List UInt8}

theorem strict_prefix_append {c d : List UInt8} (hp : p <+: c ++ d) (hne : p ≠ c ++ d) :
    (p <+: c ∧ p ≠ c) ∨ ∃ q, p = c ++ q ∧ q <+: d ∧ q ≠ d := by
  by_cases hlen : c.length ≤ p.length
  · right
    obtain ⟨q, rfl⟩ := prefix_of_prefix_length_le (prefix_append c d) hp hlen
    exact ⟨q, rfl, (prefix_append_right_inj c).mp hp, fun h => hne (by rw [h])⟩
  · left
    refine ⟨prefix_of_prefix_length_le hp (prefix_append c d) (by omega), ?_⟩
    rintro rfl
    exact hlen (Nat.le_refl _)

/-- An error that nobody goes on from, and that of a stream which is too short, is passed on. -/
theorem Delimited.attempt_bind_of (hx : Delimited caught short x)
    (hf : ∀ o, Settled caught o → Delimited caught short (f o))
    (hpass : ∀ e, ¬ caught e ∨ short e → f (.error e) = fail e) :
    Delimited caught short (attempt x >>= f) := by
  intro r o r'' h hsettled
  match hxr : x r with
  | (out, r') =>
    rw [attempt_bind hxr] at h
    have hout : Settled caught out := by
      cases out with
      | ok a => trivial
      | error e =>
        by_contra hnot
        rw [hpass e (.inl hnot)] at h
        cases h
        exact hnot hsettled
    obtain ⟨c, rfl, hmore, hless⟩ := hx r out r' hxr hout
    obtain ⟨d, rfl, hmore', hless'⟩ := hf out hout r' o r'' h hsettled
    refine ⟨c ++ d, (append_assoc c d r'').symm, fun s => ?_, fun p hp hne => ?_⟩
    · rw [append_assoc, attempt_bind (hmore _), hmore']
    · rcases strict_prefix_append hp hne with ⟨hpc, hpne⟩ | ⟨q, rfl, hq, hqne⟩
      · obtain ⟨e, s, he, hxp⟩ := hless p hpc hpne
        refine ⟨e, s, he, ?_⟩
        rw [attempt_bind hxp, hpass e (.inr he)]
        rfl
      · obtain ⟨e, s, he, hfq⟩ := hless' q hq hqne
        exact ⟨e, s, he, by rw [attempt_bind (hmore q), hfq]⟩

theorem Delimited.attempt_bind (hshort : ∀ e, short e → ¬ caught e) (hx : Delimited caught short x)
    (hf : ∀ o, Settled caught o → Delimited caught short (f o))
    (hpass : ∀ e, ¬ caught e → f (.error e) = fail e) : Delimited caught short (attempt x >>= f) :=
  hx.attempt_bind_of hf fun e he => hpass e (he.elim id (hshort e))

theorem Delimited.bind {f : α → ByteReader ε β} (hx : Delimited caught short x)
    (hf : ∀ a, Delimited caught short (f a)) : Delimited caught short (x >>= f) := by
  rw [bind_eq_attempt_bind]
  refine hx.attempt_bind_of (fun o _ => ?_) fun _ _ => rfl
  cases o with
  | ok a => exact hf a
  | error e => exact delimited_fail e

theorem length_lt_of_strict {c : List UInt8} (hp : p <+: c) (hne : p ≠ c) :
    p.length < c.length := by
  have hle := hp.length_le
  have hne' : p.length ≠ c.length := fun h => hne (hp.eq_of_length h)
  omega

/-! The primitives: the error they are given is that of a stream which ends too early. -/

section Primitives

variable {eof : ε} (heof : short eof) (hshort : ∀ e, short e → ¬ caught e)

include heof hshort

theorem delimited_readByte : Delimited caught short (readByte eof) := by
  intro r o r' h hsettled
  cases r with
  | nil =>
    cases h
    exact absurd hsettled (hshort eof heof)
  | cons b r =>
    cases h
    refine ⟨[b], rfl, fun s => rfl, fun p hp hne => ?_⟩
    -- the only strict front part is empty
    have hnil : p = [] := eq_nil_of_length_eq_zero (Nat.lt_one_iff.mp (length_lt_of_strict hp hne))
    exact ⟨eof, [], heof, by rw [hnil]; rfl⟩

theorem delimited_discard (n : Nat) : Delimited caught short (discard eof n) := by
  intro r o r' h hsettled
  unfold discard at h
  split at h <;> cases h
  next hn =>
    have hlen : (r.take n).length = n := length_take_of_le hn
    refine ⟨r.take n, (take_append_drop n r).symm, fun s => discard_append eof _ s n hlen, ?_⟩
    intro p hp hne
    have hlt := length_lt_of_strict hp hne
    exact ⟨eof, [], heof, if_neg (by omega)⟩
  · exact absurd hsettled (hshort eof heof)

theorem delimited_readFull {unexpected : ε} (hun : short unexpected) (n : Nat) :
    Delimited caught short (readFull eof unexpected n) := by
  intro r o r' h hsettled
  unfold readFull at h
  split at h
  next hn =>
    cases h
    have hlen : (r.take n).length = n := length_take_of_le hn
    refine ⟨r.take n, (take_append_drop n r).symm,
      fun s => readFull_append eof unexpected _ s n hlen, ?_⟩
    intro p hp hne
    have hlt := length_lt_of_strict hp hne
    unfold readFull
    rw [if_neg (by omega)]
    split
    · exact ⟨eof, [], heof, rfl⟩
    · exact ⟨unexpected, [], hun, rfl⟩
  split at h <;> cases h
  · exact absurd hsettled (hshort eof heof)
  · exact absurd hsettled (hshort unexpected hun)

end Primitives

theorem splitAfter_eq_some {line r' : List UInt8} (h : splitAfter d r = some (line, r')) :
    ∃ xs, line = xs ++ [d] ∧ d ∉ xs ∧ r = line ++ r' := by
  induction r generalizing line with
  | nil => cases h
  | cons b r ih =>
    rw [splitAfter] at h
    split at h
    next hb =>
      cases h
      exact ⟨[], by rw [hb]; rfl, by simp, rfl⟩
    next hb =>
      obtain ⟨⟨line', r''⟩, hrest, ⟨⟩⟩ := Option.map_eq_some_iff.mp h
      obtain ⟨xs, rfl, hxs, rfl⟩ := ih hrest
      exact ⟨b :: xs, rfl, not_mem_cons_of_ne_of_not_mem (Ne.symm hb) hxs, rfl⟩

theorem splitAfter_eq_none (h : d ∉ r) : splitAfter d r = none := by
  induction r with
  | nil => rfl
  | cons b r ih =>
    have hb : b ≠ d := fun hb => h (by simp [hb])
    rw [splitAfter, if_neg hb, ih fun hr => h (by simp [hr])]
    rfl

theorem notMem_of_strict {xs : List UInt8} (hxs : d ∉ xs) (hp : p <+: xs ++ [d])
    (hne : p ≠ xs ++ [d]) : d ∉ p := by
  have hpx : p <+: xs := (prefix_concat_iff.mp hp).resolve_left hne
  exact fun hmem => hxs (hpx.subset hmem)

theorem delimited_readBytes (heof : short eof) (hshort : ∀ e, short e → ¬ caught e) (d : UInt8) :
    Delimited caught short (readBytes eof d) := by
  intro r o r' h hsettled
  unfold readBytes at h
  split at h <;> cases h
  next hsplit =>
    obtain ⟨xs, rfl, hxs, rfl⟩ := splitAfter_eq_some hsplit
    refine ⟨xs ++ [d], rfl, fun s => ?_, fun p hp hne => ⟨eof, [], heof, ?_⟩⟩
    · rw [append_assoc]
      exact readBytes_append eof d xs s hxs
    · unfold readBytes
      rw [splitAfter_eq_none (notMem_of_strict hxs hp hne)]
  · exact absurd hsettled (hshort eof heof)

theorem delimited_readSlice (heof : short eof) (hshort : ∀ e, short e → ¬ caught e)
    (hfull : ¬ caught full) (size : Nat) (d : UInt8) :
    Delimited caught short (readSlice eof full size d) := by
  intro r o r' h hsettled
  unfold readSlice at h
  split at h <;> split at h <;> cases h
  next hsize hsplit =>
    obtain ⟨xs, rfl, hxs, rfl⟩ := splitAfter_eq_some hsplit
    rw [length_append, length_singleton] at hsize
    refine ⟨xs ++ [d], rfl, fun s => ?_, fun p hp hne => ⟨eof, [], heof, ?_⟩⟩
    · rw [append_assoc]
      exact readSlice_append eof full size d xs s hxs (by omega)
    · have hlt := length_lt_of_strict hp hne
      rw [length_append, length_singleton] at hlt
      unfold readSlice
      rw [splitAfter_eq_none (notMem_of_strict hxs hp hne)]
      exact if_neg (by omega)
  · exact absurd hsettled hfull
  · exact absurd hsettled hfull
  · exact absurd hsettled (hshort eof heof)

end Delimited

/-! ## How much is consumed -/

def Takes (caught : ε → Prop) (k : Nat) (x : ByteReader ε α) : Prop :=
  ∀ r o r', x r = (o, r') → Settled caught o → r'.length + k ≤ r.length

theorem Delimited.takes {short : ε → Prop} (hx : Delimited caught short x) : Takes caught 0 x := by
  intro r o r' h hsettled
  obtain ⟨c, rfl, -, -⟩ := hx r o r' h hsettled
  rw [length_append]
  omega

theorem Delimited.takes_one {short : ε → Prop} (hx : Delimited caught short x)
    (hnil : ¬ Settled caught (x []).1) : Takes caught 1 x := by
  intro r o r' h hsettled
  obtain ⟨c, rfl, hmore, -⟩ := hx r o r' h hsettled
  cases c with
  | nil =>
    have hempty : x [] = (o, []) := hmore []
    exact absurd (hempty ▸ hsettled) hnil
  | cons b c =>
    rw [length_append, length_cons]
    omega

theorem readSlice_eq_ok {size : Nat} {line r' : List UInt8}
    (h : readSlice eof full size d r = (.ok line, r')) : r = line ++ r' := by
  unfold readSlice at h
  split at h <;> split at h <;> cases h
  next _ hsplit =>
    obtain ⟨xs, -, -, hr⟩ := splitAfter_eq_some hsplit
    exact hr

/-! ## Fuel -/

section Fuel

variable (stop : ε)

/-- The second reader does what the first one does, unless that one stops. -/
def Extends (x y : ByteReader ε α) : Prop := ∀ r, (x r).1 ≠ .error stop → y r = x r

variable {stop}

theorem extends_refl (x : ByteReader ε α) : Extends stop x x := fun _ _ => rfl

theorem extends_stop (y : ByteReader ε α) : Extends stop (fail stop) y := fun _ h => absurd rfl h

theorem Extends.attempt_bind {g : Except ε α → ByteReader ε β} (hx : Extends stop x y)
    (hf : ∀ o, Extends stop (f o) (g o)) (hstop : f (.error stop) = fail stop) :
    Extends stop (attempt x >>= f) (attempt y >>= g) := by
  intro r h
  match hxr : x r with
  | (o, r') =>
    rw [ByteReader.attempt_bind hxr] at h ⊢
    have ho : o ≠ .error stop := by
      rintro rfl
      rw [hstop] at h
      exact h rfl
    have hy : y r = (o, r') := by rw [hx r (by rwa [hxr]), hxr]
    rw [ByteReader.attempt_bind hy, hf o r' h]

theorem Extends.bind {f g : α → ByteReader ε β} (hx : Extends stop x y)
    (hf : ∀ a, Extends stop (f a) (g a)) : Extends stop (x >>= f) (y >>= g) := by
  rw [bind_eq_attempt_bind x, bind_eq_attempt_bind y]
  refine hx.attempt_bind (fun o => ?_) rfl
  cases o with
  | ok a => exact hf a
  | error e => exact extends_refl _

variable {n : Nat}

theorem extends_of_le {x : Nat → ByteReader ε α} (h : ∀ n, Extends stop (x n) (x (n + 1))) {m : Nat}
    (hle : n ≤ m) : Extends stop (x n) (x m) := by
  induction hle with
  | refl => exact extends_refl (x n)
  | step _ ih =>
    intro r hr
    have hsame := ih r hr
    rw [h _ r (by rwa [hsame]), hsame]

theorem eq_of_extends {x : Nat → ByteReader ε α} (h : ∀ n, Extends stop (x n) (x (n + 1))) {m : Nat}
    (hn : (x n r).1 ≠ .error stop) (hm : (x m r).1 ≠ .error stop) : x n r = x m r := by
  rw [← extends_of_le h (Nat.le_max_left n m) r hn, ← extends_of_le h (Nat.le_max_right n m) r hm]

variable (stop)

def Ends (n : Nat) (x : ByteReader ε α) : Prop := ∀ r, r.length ≤ n → (x r).1 ≠ .error stop

variable {stop}

theorem ends_pure (n : Nat) (a : α) : Ends stop n (pure a : ByteReader ε α) := fun _ _ => nofun

theorem ends_fail (he : e ≠ stop) : Ends stop n (fail e : ByteReader ε α) :=
  fun _ _ h => he (Except.error.inj h)

/-- What comes behind a reader that takes `k` bytes has so many bytes less. -/
theorem Ends.attempt_bind {k : Nat} (hx : Ends stop n x) (htakes : Takes caught k x)
    (hf : ∀ m, m + k ≤ n → ∀ o, Settled caught o → Ends stop m (f o))
    (hpass : ∀ e, ¬ caught e → f (.error e) = fail e) : Ends stop n (attempt x >>= f) := by
  intro r hr
  match hxr : x r with
  | (o, r') =>
    rw [ByteReader.attempt_bind hxr]
    by_cases ho : Settled caught o
    · have hlen := htakes r o r' hxr ho
      exact hf r'.length (by omega) o ho r' (Nat.le_refl _)
    · cases o with
      | ok a => exact absurd trivial ho
      | error e =>
        have h := hx r hr
        rw [hxr] at h
        rw [hpass e ho]
        exact fun hstop => h (by rw [Except.error.inj hstop])

theorem Ends.bind {k : Nat} {f : α → ByteReader ε β} (hx : Ends stop n x)
    (htakes : Takes caught k x) (hf : ∀ m, m + k ≤ n → ∀ a, Ends stop m (f a)) :
    Ends stop n (x >>= f) := by
  have hvalues : Takes (fun _ => False) k x := by
    intro r o r' h ho
    cases o with
    | ok a => exact htakes r _ r' h trivial
    | error e => exact ho.elim
  rw [bind_eq_attempt_bind]
  refine hx.attempt_bind hvalues (fun m hm o ho => ?_) fun _ _ => rfl
  cases o with
  | ok a => exact hf m hm a
  | error e => exact ho.elim

end Fuel

/-! ## The errors of a reader -/

def Raises (kind : ε → Prop) (x : ByteReader ε α) : Prop := ∀ r e r', x r = (.error e, r') → kind e

section Raises

variable {kind : ε → Prop}

theorem raises_pure (a : α) : Raises kind (pure a : ByteReader ε α) := nofun

theorem raises_fail (he : kind e) : Raises kind (fail e : ByteReader ε α) := by
  intro r e' r' h
  cases h
  exact he

theorem Raises.bind {f : α → ByteReader ε β} (hx : Raises kind x) (hf : ∀ a, Raises kind (f a)) :
    Raises kind (x >>= f) := by
  intro r e r'' h
  match hxr : x r with
  | (.error e', r') =>
    rw [bind_error hxr] at h
    cases h
    exact hx r e _ hxr
  | (.ok a, r') =>
    rw [bind_ok hxr] at h
    exact hf a r' e r'' h

variable (heof : kind eof)

include heof

theorem raises_readByte : Raises kind (readByte eof) := by
  intro r e r' h
  cases r with
  | nil =>
    cases h
    exact heof
  | cons b r => cases h

theorem raises_discard (n : Nat) : Raises kind (discard eof n) := by
  intro r e r' h
  unfold discard at h
  split at h <;> cases h
  exact heof

theorem raises_readFull {unexpected : ε} (hun : kind unexpected) (n : Nat) :
    Raises kind (readFull eof unexpected n) := by
  intro r e r' h
  unfold readFull at h
  split at h
  · cases h
  split at h <;> cases h
  · exact heof
  · exact hun

theorem raises_readBytes (d : UInt8) : Raises kind (readBytes eof d) := by
  intro r e r' h
  unfold readBytes at h
  split at h <;> cases h
  exact heof

theorem raises_readSlice (hfull : kind full) (size : Nat) (d : UInt8) :
    Raises kind (readSlice eof full size d) := by
  intro r e r' h
  unfold readSlice at h
  split at h <;> split at h <;> cases h
  · exact hfull
  · exact hfull
  · exact heof

omit heof

theorem Raises.ends {stop : ε} (hx : Raises kind x) (hstop : ¬ kind stop) (n : Nat) :
    Ends stop n x := by
  intro r _ h
  exact hstop (hx r stop (x r).2 (by rw [← h]))

end Raises

end ByteReader
