import Rueidis.Commands
import Rueidis.Library.Decimal
import Rueidis.Library.PrefixCode

/-!
# Cache keys identify commands

The client side cache addresses a reply by `CacheKey`: the key word, and the other words of the
command in one text.  A command of two words contributes its bare name, every other command its
words behind their lengths.
-/

namespace Rueidis

open List

/-! ## Words behind their lengths -/

variable {name : Bytes} {g : Completed} {keys : List Bytes}

theorem putUvarint_splits (fuel : Nat) :
    PrefixCode.Splits (putUvarint fuel) (· < 128 ^ fuel) := by
  induction fuel with
  | zero =>
    intro n m x y hn hm h
    rw [Nat.pow_zero] at hn hm
    exact ⟨by omega, h⟩
  | succ fuel ih =>
    intro n m x y hn hm h
    rw [Nat.pow_succ] at hn hm
    have htoNat : ∀ {u v : Nat}, u < 256 → v < 256 → u.toUInt8 = v.toUInt8 → u = v := by
      intro u v hu hv huv
      have := congrArg UInt8.toNat huv
      rw [Nat.toUInt8_eq, Nat.toUInt8_eq, UInt8.toNat_ofNat', UInt8.toNat_ofNat'] at this
      omega
    unfold putUvarint at h
    by_cases h1 : n < 0x80 <;> by_cases h2 : m < 0x80
    · rw [if_pos h1, if_pos h2, singleton_append, singleton_append] at h
      obtain ⟨hhead, htail⟩ := cons.inj h
      exact ⟨htoNat (by omega) (by omega) hhead, htail⟩
    · -- the continuation bit tells the lengths apart
      rw [if_pos h1, if_neg h2, singleton_append, cons_append] at h
      have := htoNat (by omega) (by omega) (cons.inj h).1
      omega
    · rw [if_neg h1, if_pos h2, singleton_append, cons_append] at h
      have := htoNat (by omega) (by omega) (cons.inj h).1
      omega
    · rw [if_neg h1, if_neg h2, cons_append, cons_append] at h
      obtain ⟨hhead, htail⟩ := cons.inj h
      have hlow := htoNat (by omega) (by omega) hhead
      obtain ⟨hhigh, hrest⟩ := ih _ _ _ _ (by omega) (by omega) htail
      exact ⟨by omega, hrest⟩

def IsGoString (s : Bytes) : Prop := s.length < 2 ^ 63

theorem appendCachePart_splits : PrefixCode.Splits appendCachePart IsGoString := by
  intro s t x y hs ht h
  have hbound : (2 : Nat) ^ 63 < 128 ^ 10 := by decide
  unfold IsGoString at hs ht
  exact PrefixCode.splits_lengthPrefixed (putUvarint_splits 10) s t x y (by omega) (by omega) h

theorem appendCachePart_ne_nil (s : Bytes) : appendCachePart s ≠ [] := by
  unfold appendCachePart putUvarint
  split <;> simp

theorem appendCachePart_short {s : Bytes} (hs : s.length < 128) :
    appendCachePart s = s.length.toUInt8 :: s := by
  unfold appendCachePart putUvarint
  rw [if_pos hs, singleton_append]

/-! ## Cacheable commands -/

/-- A command name: it starts with a capital letter whose code is above the length of the name. -/
def IsCommandName : Bytes → Prop
  | [] => False
  | b :: bs => 65 ≤ b.toNat ∧ b.toNat ≤ 90 ∧ (b :: bs).length < b.toNat

instance : DecidablePred IsCommandName
  | [] => inferInstanceAs (Decidable False)
  | _ :: _ => inferInstanceAs (Decidable (_ ∧ _ ∧ _))

/-- What the builder gives to `Cache()`.  `isScript` tells which names are script commands; those
have `numkeys` 1. -/
structure CacheBuilt (isScript : Bytes → Bool) (c : Completed) : Prop where
  name : IsCommandName (c.cs.s.headD [])
  script : c.has scrRoTag = isScript (c.cs.s.headD [])
  numkeys : c.has scrRoTag = true → c.cs.s[2]? = some (lit "1")
  words : ∀ w ∈ c.cs.s, IsGoString w

/-- The builder's `EvalRo().Script(script).Numkeys(numkeys).Key(keys...).Arg(args...).Cache()`;
`Key` and `Arg` may be left out. -/
def evalRo (script : Bytes) (numkeys : Int64) (keys args : List Bytes) : Completed :=
  { cs := { s := [lit "EVAL_RO", script, Decimal.numeralInt numkeys.toInt] ++ keys ++ args },
    cf := scrRoTag }

/-- A name is not the text of several words behind their lengths, which is longer than its first
byte. -/
theorem ne_flatMap_of_isCommandName {words : List Bytes} (hname : IsCommandName name)
    (hfirst : IsCommandName (words.headD [])) : name ≠ words.flatMap appendCachePart := by
  intro h
  cases name with
  | nil => exact hname
  | cons b bs =>
    cases words with
    | nil => exact hfirst
    | cons w ws =>
      have hshort : w.length < 128 := by
        cases w with
        | nil => exact absurd hfirst id
        | cons c cs =>
          have hcode : c.toNat ≤ 90 := hfirst.2.1
          have hlong : (c :: cs).length < c.toNat := hfirst.2.2
          omega
      rw [flatMap_cons, appendCachePart_short hshort, cons_append] at h
      obtain ⟨hhead, htail⟩ := cons.inj h
      have hb : b.toNat = w.length := by
        rw [hhead, Nat.toUInt8_eq, UInt8.toNat_ofNat']
        omega
      have hlen := congrArg length htail
      rw [length_append] at hlen
      have := hname.2.2
      rw [length_cons] at this
      omega

/-! ## The two forms of a cache key -/

def keyPosition (c : Completed) : Nat := if c.has scrRoTag then 3 else 1

variable {c c₁ c₂ : Completed} {key : Bytes} {isScript : Bytes → Bool}

theorem cacheKey_pair (h : c.cs.s = [name, key]) : cacheKey c = .ok (key, name) := by
  unfold cacheKey
  rw [h]

theorem cacheKey_keyed (hc : CacheBuilt isScript c) (hlen : c.cs.s.length ≠ 2) :
    cacheKey c = .ok (cacheKey.keyed (keyPosition c) c.cs.s) := by
  unfold cacheKey keyPosition
  split
  · rename_i hwords
    rw [hwords] at hlen
    exact absurd rfl hlen
  · by_cases hs : c.has scrRoTag = true
    · rw [if_pos hs, if_pos hs, hc.numkeys hs]
      rfl
    · rw [if_neg hs, if_neg hs]

theorem eq_of_eraseIdx {n : Nat} {ws vs : List Bytes} (hlen : n < ws.length ↔ n < vs.length)
    (herase : ws.eraseIdx n = vs.eraseIdx n) (hget : ws.getD n [] = vs.getD n []) : ws = vs := by
  induction n generalizing ws vs with
  | zero =>
    cases ws with
    | nil => exact (length_eq_zero_iff.mp (by simpa using hlen)).symm
    | cons w ws =>
      cases vs with
      | nil => exact absurd hlen (by simp)
      | cons v vs =>
        rw [getD_cons_zero, getD_cons_zero] at hget
        rw [eraseIdx_zero, eraseIdx_zero, tail_cons, tail_cons] at herase
        rw [hget, herase]
  | succ n ih =>
    cases ws with
    | nil =>
      cases vs with
      | nil => rfl
      | cons v vs => exact absurd herase (by simp)
    | cons w ws =>
      cases vs with
      | nil => exact absurd herase (by simp)
      | cons v vs =>
        rw [eraseIdx_cons_succ, eraseIdx_cons_succ] at herase
        obtain ⟨hhead, htail⟩ := cons.inj herase
        rw [length_cons, length_cons, Nat.add_lt_add_iff_right,
          Nat.add_lt_add_iff_right] at hlen
        rw [hhead, ih hlen htail hget]

/-- A script command with the key that its `numkeys` announces; other commands as they are. -/
structure KeyedBuilt (isScript : Bytes → Bool) (c : Completed) : Prop extends
    CacheBuilt isScript c where
  keyed : c.has scrRoTag = true → 4 ≤ c.cs.s.length

theorem headD_eraseIdx_keyPosition (c : Completed) :
    (c.cs.s.eraseIdx (keyPosition c)).headD [] = c.cs.s.headD [] := by
  unfold keyPosition
  cases c.cs.s with
  | nil => rfl
  | cons w ws => split <;> rfl

theorem words_eq_of_keyed (h₁ : KeyedBuilt isScript c₁) (h₂ : KeyedBuilt isScript c₂)
    (hlen₁ : c₁.cs.s.length ≠ 2) (hlen₂ : c₂.cs.s.length ≠ 2)
    (h : cacheKey.keyed (keyPosition c₁) c₁.cs.s = cacheKey.keyed (keyPosition c₂) c₂.cs.s) :
    c₁.cs.s = c₂.cs.s := by
  rw [Prod.mk.injEq] at h
  obtain ⟨hkey, hrest⟩ := h
  have herase := PrefixCode.flatMap_injOn appendCachePart_splits appendCachePart_ne_nil
    (fun w hw => h₁.words w (mem_of_mem_eraseIdx hw))
    (fun w hw => h₂.words w (mem_of_mem_eraseIdx hw)) hrest
  -- the names agree, so both commands are scripts or none is, and the keys stand at one position
  have hname : c₁.cs.s.headD [] = c₂.cs.s.headD [] := by
    rw [← headD_eraseIdx_keyPosition c₁, herase, headD_eraseIdx_keyPosition]
  have hscript : c₁.has scrRoTag = c₂.has scrRoTag := by
    rw [h₁.script, h₂.script, hname]
  have hpos : keyPosition c₁ = keyPosition c₂ := by
    unfold keyPosition
    rw [hscript]
  rw [hpos] at herase hkey
  have hcount := congrArg length herase
  rw [length_eraseIdx, length_eraseIdx] at hcount
  have hnil : ∀ {c : Completed}, CacheBuilt isScript c → c.cs.s.length ≠ 0 := by
    intro c hc hz
    have := hc.name
    rw [length_eq_zero_iff.mp hz] at this
    exact this
  have hpos₁ := hnil h₁.toCacheBuilt
  have hpos₂ := hnil h₂.toCacheBuilt
  apply eq_of_eraseIdx _ herase hkey
  unfold keyPosition at hcount ⊢
  by_cases hs : c₂.has scrRoTag = true
  · have := h₁.keyed (hscript.trans hs)
    have := h₂.keyed hs
    rw [if_pos hs]
    omega
  · rw [if_neg hs] at hcount ⊢
    split at hcount <;> split at hcount <;> omega

theorem words_eq_of_cacheKey_eq (h₁ : KeyedBuilt isScript c₁) (h₂ : KeyedBuilt isScript c₂)
    (h : cacheKey c₁ = cacheKey c₂) : c₁.cs.s = c₂.cs.s := by
  -- a bare name on one side only
  have hmixed : ∀ {c d : Completed}, KeyedBuilt isScript c → KeyedBuilt isScript d →
      c.cs.s.length = 2 → d.cs.s.length ≠ 2 → cacheKey c ≠ cacheKey d := by
    intro c d hc hd hlc hld heq
    obtain ⟨name, key, hwords⟩ := length_eq_two.mp hlc
    rw [cacheKey_pair hwords, cacheKey_keyed hd.toCacheBuilt hld] at heq
    have hname := hc.name
    rw [hwords] at hname
    have hfirst := hd.name
    rw [← headD_eraseIdx_keyPosition d] at hfirst
    exact ne_flatMap_of_isCommandName hname hfirst (congrArg Prod.snd (Except.ok.inj heq))
  by_cases hlen₁ : c₁.cs.s.length = 2 <;> by_cases hlen₂ : c₂.cs.s.length = 2
  · obtain ⟨name₁, key₁, hwords₁⟩ := length_eq_two.mp hlen₁
    obtain ⟨name₂, key₂, hwords₂⟩ := length_eq_two.mp hlen₂
    rw [cacheKey_pair hwords₁, cacheKey_pair hwords₂] at h
    obtain ⟨rfl, rfl⟩ := Prod.mk.inj (Except.ok.inj h)
    rw [hwords₁, hwords₂]
  · exact absurd h (hmixed h₁ h₂ hlen₁ hlen₂)
  · exact absurd h.symm (hmixed h₂ h₁ hlen₂ hlen₁)
  · rw [cacheKey_keyed h₁.toCacheBuilt hlen₁, cacheKey_keyed h₂.toCacheBuilt hlen₂] at h
    exact words_eq_of_keyed h₁ h₂ hlen₁ hlen₂ (Except.ok.inj h)

theorem cacheKey_eq_of_words_eq (h₁ : CacheBuilt isScript c₁) (h₂ : CacheBuilt isScript c₂)
    (h : c₁.cs.s = c₂.cs.s) : cacheKey c₁ = cacheKey c₂ := by
  have hscript : c₁.has scrRoTag = c₂.has scrRoTag := by
    rw [h₁.script, h₂.script, h]
  unfold cacheKey
  rw [h, hscript]

theorem cacheKey_ne_panic (hc : CacheBuilt isScript c) : ∃ k, cacheKey c = .ok k := by
  by_cases hlen : c.cs.s.length = 2
  · obtain ⟨name, key, hwords⟩ := length_eq_two.mp hlen
    exact ⟨_, cacheKey_pair hwords⟩
  · exact ⟨_, cacheKey_keyed hc hlen⟩

/-! ## The keys of an MGET -/

def mgetCachePair (c : Completed) (i : Nat) : Except Panic (Bytes × Bytes) := do
  let key ← mgetCacheKey c i
  let cmd ← mgetCacheCmd c
  pure (key, cmd)

theorem mgetCachePair_mget {i : Nat} (hc : c.cs.s = lit "MGET" :: keys) (hi : keys[i]? = some key)
    (hg : g.cs.s = [lit "GET", key]) : mgetCachePair c i = cacheKey g := by
  have hkey : mgetCacheKey c i = .ok key := by
    unfold mgetCacheKey
    rw [hc, getElem?_cons_succ, hi]
  have hcmd : mgetCacheCmd c = .ok (lit "GET") := by
    unfold mgetCacheCmd
    rw [hc]
    rfl
  unfold mgetCachePair
  rw [hkey, hcmd, cacheKey_pair hg]
  rfl

theorem mgetCachePair_jsonMget {path : Bytes} {i : Nat}
    (hc : c.cs.s = lit "JSON.MGET" :: (keys ++ [path])) (hi : keys[i]? = some key)
    (hg : g.cs.s = [lit "JSON.GET", key, path]) (hs : g.has scrRoTag = false) :
    mgetCachePair c i = cacheKey g := by
  have hkey : mgetCacheKey c i = .ok key := by
    have hlt : i < keys.length := (List.getElem?_eq_some_iff.mp hi).1
    unfold mgetCacheKey
    rw [hc, getElem?_cons_succ, getElem?_append_left hlt, hi]
  have hcmd : mgetCacheCmd c = .ok (appendCachePart (lit "JSON.GET") ++ appendCachePart path) := by
    unfold mgetCacheCmd
    rw [hc]
    show Except.ok (_ ++ appendCachePart ((lit "JSON.MGET" :: (keys ++ [path])).getLastD [])) = _
    rw [← cons_append, getLastD_concat]
  have hget : cacheKey g =
      .ok (key, appendCachePart (lit "JSON.GET") ++ appendCachePart path) := by
    unfold cacheKey
    rw [hg, hs]
    simp [cacheKey.keyed]
  unfold mgetCachePair
  rw [hkey, hcmd, hget]
  rfl

/-! ## Cache keys and commands -/

/-- The builder accepts a script command with `numkeys` 1 and no key.  It shares its cache key with
the command that has the empty key. -/
theorem cacheKey_evalRo_without_key :
    let isScript := fun name => decide (name = lit "EVAL_RO")
    let bare := evalRo (lit "return 1") 1 [] []
    let empty := evalRo (lit "return 1") 1 [[]] []
    CacheBuilt isScript bare ∧ CacheBuilt isScript empty ∧
      cacheKey bare = cacheKey empty ∧ bare.cs.s ≠ empty.cs.s := by
  intro isScript bare empty
  refine ⟨⟨?_, ?_, ?_, ?_⟩, ⟨?_, ?_, ?_, ?_⟩, ?_, ?_⟩
  · decide
  · decide
  · exact fun _ => rfl
  · unfold IsGoString
    decide
  · decide
  · decide
  · exact fun _ => rfl
  · unfold IsGoString
    decide
  · decide
  · decide

/-- Two cacheable commands have the same cache key exactly if they have the same words, and an
MGET looks up each of its keys where the GET of that key would. -/
theorem cacheKey_identifies :
    (∀ isScript c₁ c₂, KeyedBuilt isScript c₁ → KeyedBuilt isScript c₂ →
      (∃ k, cacheKey c₁ = .ok k) ∧ (cacheKey c₁ = cacheKey c₂ ↔ c₁.cs.s = c₂.cs.s)) ∧
    (∀ (c g : Completed) (keys : List Bytes) (key : Bytes) (i : Nat),
      c.cs.s = lit "MGET" :: keys → keys[i]? = some key → g.cs.s = [lit "GET", key] →
      mgetCachePair c i = cacheKey g) ∧
    (∀ (c g : Completed) (keys : List Bytes) (path key : Bytes) (i : Nat),
      c.cs.s = lit "JSON.MGET" :: (keys ++ [path]) → keys[i]? = some key →
      g.cs.s = [lit "JSON.GET", key, path] → g.has scrRoTag = false →
      mgetCachePair c i = cacheKey g) := by
  refine ⟨?_, ?_, ?_⟩
  · intro isScript c₁ c₂ h₁ h₂
    refine ⟨cacheKey_ne_panic h₁.toCacheBuilt, words_eq_of_cacheKey_eq h₁ h₂, ?_⟩
    exact cacheKey_eq_of_words_eq h₁.toCacheBuilt h₂.toCacheBuilt
  · intro c g keys key i hc hi hg
    exact mgetCachePair_mget hc hi hg
  · intro c g keys path key i hc hi hg hs
    exact mgetCachePair_jsonMget hc hi hg hs

theorem cacheKey_identifies_hget :
    let hget := newCompleted [lit "HGET", lit "k", lit "ALL"]
    let hgetall := newCompleted [lit "HGETALL", lit "k"]
    cacheKey hget ≠ cacheKey hgetall ∧
      mgetCachePair (newCompleted [lit "MGET", lit "a", lit "b"]) 1 =
        cacheKey (newCompleted [lit "GET", lit "b"]) := by
  intro hget hgetall
  have hbuilt : ∀ c ∈ [hget, hgetall], KeyedBuilt (fun _ => false) c := by
    intro c hc
    have hflag : c.has scrRoTag = false := by
      rcases mem_pair.mp hc with rfl | rfl <;> exact newCompleted_has (by decide) _
    refine ⟨⟨?_, hflag, ?_, ?_⟩, ?_⟩
    · rcases mem_pair.mp hc with rfl | rfl <;> decide
    · rw [hflag]
      exact nofun
    · unfold IsGoString
      rcases mem_pair.mp hc with rfl | rfl <;> decide
    · rw [hflag]
      exact nofun
  refine ⟨?_, ?_⟩
  · intro h
    have hwords :=
      (cacheKey_identifies.1 _ hget hgetall (hbuilt _ (by simp)) (hbuilt _ (by simp))).2.mp h
    exact absurd hwords (by decide)
  · exact cacheKey_identifies.2.1 _ _ [lit "a", lit "b"] _ 1 rfl rfl rfl

end Rueidis
