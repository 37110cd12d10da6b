import NexCache.Lib.Wildcard

/-!
# Glob-style matching

`stringmatchlen` of `util.c`.  The pattern and the string are walked together; a `*` tries the rest
of the pattern at every position of the string, by recursion.  A `*` that fails at every position
sets `skipLongerMatches`, and then no `*` before it tries further positions.

Characters are bytes: `42` is `'*'`, `63` is `'?'`, `91` is `'['`, `92` is `'\\'`, `93` is `']'`,
`94` is `'^'` and `45` is `'-'`.  The order of a range is that of `char`, whose sign depends on the
platform, so the value of a `char` is a parameter.  The byte behind the pattern is the terminating
`NUL`, hence not a `'*'`.
-/

namespace NexCache.Util.Glob

open Wildcard List

section Matcher

variable (char : UInt8 → Int) (nocase : Bool)

/-- `tolower` of the C locale -/
def tolower (c : Int) : Int := if 65 ≤ c ∧ c ≤ 90 then c + 32 else c

def sameChar (a b : UInt8) : Bool := if nocase then tolower (char a) == tolower (char b) else a == b

def inRange (a b c : UInt8) : Bool :=
  let start := if char a > char b then char b else char a
  let stop := if char a > char b then char a else char b
  if nocase then decide (tolower start ≤ tolower (char c)) &&
    decide (tolower (char c) ≤ tolower stop)
  else decide (start ≤ char c) && decide (char c ≤ stop)

/-- The loop over a bracket class: whether `c` matched, and the pattern behind the class. -/
def classLoop (c : UInt8) : List UInt8 → Bool → Bool × List UInt8
  | 92 :: e :: p, matched => classLoop c p (matched || e == c)
  | [], matched => (matched, [])
  | 93 :: p, matched => (matched, p)
  | a :: 45 :: b :: p, matched => classLoop c p (matched || inRange char nocase a b c)
  | a :: p, matched => classLoop c p (matched || sameChar char nocase a c)

/-- `while (patternLen && *pattern == '*')` -/
def skipStars (p : List UInt8) : List UInt8 := p.dropWhile (· == 42)

/-- `not_op`, and the pattern behind it -/
def negation : List UInt8 → Bool × List UInt8
  | 94 :: p => (true, p)
  | p => (false, p)

theorem length_classLoop_le (c : UInt8) (p : List UInt8) (matched : Bool) :
    (classLoop char nocase c p matched).2.length ≤ p.length := by
  fun_induction classLoop char nocase c p matched <;> simp_all <;> omega

theorem length_negation_le (p : List UInt8) : (negation p).2.length ≤ p.length := by
  unfold negation
  split
  · exact Nat.le_succ _
  · exact le_rfl

theorem length_skipStars_le (p : List UInt8) : (skipStars p).length ≤ p.length :=
  (dropWhile_suffix _).length_le

/-- What follows a token that took a character: at the end of the string only stars may be left. -/
def afterToken (p s : List UInt8) (skip : Bool) (more : Bool × Bool) : Bool × Bool :=
  if s = [] then ((skipStars p).isEmpty, skip) else more

mutual

/-- The result, and `*skipLongerMatches` afterwards. -/
def stringmatchlenImpl (p s : List UInt8) (skip : Bool) (nesting : Nat) : Bool × Bool :=
  if 1000 < nesting then (false, skip) else matchLoop p s skip nesting
termination_by (p.length, s.length, 1)

/-- `while (patternLen && stringLen)`, with what is returned after it -/
def matchLoop (p s : List UInt8) (skip : Bool) (nesting : Nat) : Bool × Bool :=
  match p, s with
  | [], s => (s.isEmpty, skip)
  | _ :: _, [] => (false, skip)
  | b :: p, c :: s =>
    if b = 42 then
      let rest := skipStars p
      if rest = [] then (true, skip) else starLoop rest (c :: s) skip nesting
    else if b = 63 then afterToken p s skip (matchLoop p s skip nesting)
    else if b = 91 then
      let notOp := (negation p).1
      let r := classLoop char nocase c (negation p).2 false
      if r.1 = notOp then (false, skip) else afterToken r.2 s skip (matchLoop r.2 s skip nesting)
    else
      let escaped := if b = 92 ∧ p ≠ [] then p else b :: p
      if sameChar char nocase (escaped.headD 0) c = false then (false, skip)
      else afterToken (escaped.drop 1) s skip (matchLoop (escaped.drop 1) s skip nesting)
termination_by (p.length, s.length, 0)
decreasing_by
  all_goals simp_wf
  · exact Prod.Lex.left _ _ (Nat.lt_succ_of_le (length_skipStars_le p))
  · exact Prod.Lex.left _ _ (Nat.lt_succ_self _)
  · exact Prod.Lex.left _ _
      (Nat.lt_succ_of_le ((length_classLoop_le ..).trans (length_negation_le p)))
  · refine Prod.Lex.left _ _ ?_
    split
    · omega
    · rw [length_cons]
      omega

/-- `while (stringLen)` of a star: `p` is the pattern behind it -/
def starLoop (p s : List UInt8) (skip : Bool) (nesting : Nat) : Bool × Bool :=
  match s with
  | [] => (false, true)
  | c :: s =>
    let r := stringmatchlenImpl p (c :: s) skip (nesting + 1)
    if r.1 then (true, r.2)
    else if r.2 then (false, r.2)
    else starLoop p s r.2 nesting
termination_by (p.length, s.length, 2)

end

def stringmatchlen (p s : List UInt8) : Bool := (stringmatchlenImpl char nocase p s false 0).1

end Matcher

/-! ### The language of a pattern -/

/-- A member of a bracket class. -/
inductive Item where
  | byte (b : UInt8)
  | range (a b : UInt8)

inductive Token where
  | star
  | any
  | cls (negated : Bool) (items : List Item)
  | byte (b : UInt8)

section Language

variable (char : UInt8 → Int)

/-- The ends of a range may come in either order. -/
def Item.Has (c : UInt8) : Item → Prop
  | .byte b => b = c
  | .range a b => min (char a) (char b) ≤ char c ∧ char c ≤ max (char a) (char b)

def Token.Takes (c : UInt8) : Token → Prop
  | .star => False
  | .any => True
  | .cls negated items => (∃ i ∈ items, i.Has char c) ↔ negated = false
  | .byte b => b = c

def Token.language : Token → Language UInt8
  | .star => ⊤
  | t => one fun c => t.Takes char c

def language (ts : List Token) : Language UInt8 := (ts.map (Token.language char)).prod

/-- The members of a bracket class, and the pattern behind it; the class ends at `']'` or with the
pattern. -/
def classItems : List UInt8 → List Item × List UInt8
  | 92 :: e :: p => ((classItems p).1.cons (.byte e), (classItems p).2)
  | [] => ([], [])
  | 93 :: p => ([], p)
  | a :: 45 :: b :: p => ((classItems p).1.cons (.range a b), (classItems p).2)
  | a :: p => ((classItems p).1.cons (.byte a), (classItems p).2)

theorem length_classItems_le (p : List UInt8) : (classItems p).2.length ≤ p.length := by
  fun_induction classItems p <;> simp_all <;> omega

/-- The tokens of a pattern. -/
def tokens (p : List UInt8) : List Token :=
  match p with
  | [] => []
  | b :: p =>
    if b = 42 then .star :: tokens p
    else if b = 63 then .any :: tokens p
    else if b = 91 then .cls (negation p).1 (classItems (negation p).2).1 ::
      tokens (classItems (negation p).2).2
    else if b = 92 ∧ p ≠ [] then .byte (p.headD 0) :: tokens (p.drop 1)
    else .byte b :: tokens p
termination_by p.length
decreasing_by
  all_goals simp_wf
  all_goals have := length_classItems_le (negation p).2
  all_goals have := length_negation_le p
  all_goals omega

theorem language_cons (t : Token) (ts : List Token) :
    language char (t :: ts) = t.language char * language char ts := by
  rw [language, map_cons, prod_cons, language]

theorem language_nil : language char [] = 1 := rfl

end Language

/-! ### One turn of the loop -/

variable {char : UInt8 → Int} {p s : List UInt8} {c : UInt8} {L : Language UInt8}

theorem inRange_iff {a b : UInt8} : inRange char false a b c = true ↔
    (Item.range a b).Has char c := by
  rw [inRange, Item.Has, if_neg Bool.false_ne_true, Bool.and_eq_true, decide_eq_true_eq,
    decide_eq_true_eq]
  split <;> omega

theorem sameChar_iff {b : UInt8} : sameChar char false b c = true ↔ b = c := by
  rw [sameChar, if_neg Bool.false_ne_true, beq_iff_eq]

theorem classLoop_eq (char : UInt8 → Int) (c : UInt8) (p : List UInt8) (matched : Bool) :
    ((classLoop char false c p matched).1 = true ↔ matched = true ∨
    ∃ i ∈ (classItems p).1, i.Has char c)
    ∧ (classLoop char false c p matched).2 = (classItems p).2 := by
  fun_induction classLoop char false c p matched with
  | case1 e p matched ih =>
    rw [classItems, ih.1]
    refine ⟨?_, ih.2⟩
    simp [Item.Has, or_assoc]
  | case2 matched | case3 p matched => simp [classItems]
  | case4 a b p matched hescape hclose ih =>
    rw [classItems, ih.1, Bool.or_eq_true, inRange_iff]
    · refine ⟨?_, ih.2⟩
      simp [or_assoc]
    · exact hescape
    · exact hclose
  | case5 a p matched hescape hclose hrange ih =>
    rw [classItems, ih.1, Bool.or_eq_true, sameChar_iff]
    · refine ⟨?_, ih.2⟩
      simp [Item.Has, or_assoc]
    · exact hescape
    · exact hclose
    · exact hrange

/-- A token that takes one character, and the pattern behind it. -/
structure OneChar (char : UInt8 → Int) (p : List UInt8) (t : Token) (q : List UInt8) : Prop where
  tokens_eq : tokens p = t :: tokens q
  language_eq : t.language char = one fun c => t.Takes char c
  shorter : q.length < p.length
  taken : ∀ c s skip nesting, t.Takes char c →
    matchLoop char false p (c :: s) skip nesting =
      afterToken q s skip (matchLoop char false q s skip nesting)
  refused : ∀ c s skip nesting, ¬ t.Takes char c →
    matchLoop char false p (c :: s) skip nesting = (false, skip)

/-- What the loop does with everything but a star. -/
theorem exists_oneChar (char : UInt8 → Int) {b : UInt8} (hb : b ≠ 42) (p : List UInt8) :
    ∃ t q, OneChar char (b :: p) t q := by
  by_cases hany : b = 63
  · refine ⟨.any, p, ?_, rfl, Nat.lt_succ_self _, ?_, ?_⟩
    · rw [tokens, if_neg hb, if_pos hany]
    · intro c s skip nesting _
      rw [matchLoop, if_neg hb, if_pos hany]
    · intro c s skip nesting h
      exact absurd trivial h
  · by_cases hcls : b = 91
    · have htaken := fun c => classLoop_eq char c (negation p).2 false
      simp only [Bool.false_eq_true, false_or] at htaken
      refine ⟨.cls (negation p).1 (classItems (negation p).2).1, (classItems (negation p).2).2, ?_,
        rfl, ?_, ?_, ?_⟩
      · rw [tokens, if_neg hb, if_neg hany, if_pos hcls]
      · exact Nat.lt_succ_of_le ((length_classItems_le _).trans (length_negation_le p))
      · intro c s skip nesting h
        rw [Token.Takes, ← (htaken c).1] at h
        rw [matchLoop, if_neg hb, if_neg hany, if_pos hcls]
        rw [if_neg, (htaken c).2]
        intro heq
        rw [heq] at h
        cases hneg : (negation p).1 <;> simp [hneg] at h
      · intro c s skip nesting h
        rw [Token.Takes, ← (htaken c).1] at h
        rw [matchLoop, if_neg hb, if_neg hany, if_pos hcls]
        dsimp only
        rw [if_pos]
        cases hneg : (negation p).1 <;> simpa [hneg] using h
    · generalize hescaped : (if b = 92 ∧ p ≠ [] then p else b :: p) = escaped
      have htokens : tokens (b :: p) = .byte (escaped.headD 0) :: tokens (escaped.drop 1) := by
        rw [tokens, if_neg hb, if_neg hany, if_neg hcls, ← hescaped]
        split <;> rfl
      have hlength : (escaped.drop 1).length < (b :: p).length := by
        rw [← hescaped, length_drop]
        split <;> rw [length_cons] <;> omega
      refine ⟨.byte (escaped.headD 0), escaped.drop 1, htokens, rfl, hlength, ?_, ?_⟩
      · intro c s skip nesting h
        rw [matchLoop, if_neg hb, if_neg hany, if_neg hcls, hescaped]
        dsimp only
        rw [if_neg (by rw [sameChar_iff.mpr h]; exact Bool.noConfusion)]
      · intro c s skip nesting h
        rw [matchLoop, if_neg hb, if_neg hany, if_neg hcls, hescaped]
        dsimp only
        rw [if_pos (Bool.eq_false_iff.mpr fun hsame => h (sameChar_iff.mp hsame))]

/-! ### The search -/

/-- What a call reports is right: its result, and that the rest of the string is hopeless when it
says so. -/
structure Good (L : Language UInt8) (s : List UInt8) (r : Bool × Bool) : Prop where
  mem_iff : r.1 = true ↔ s ∈ L
  hopeless : r.2 = true → Hopeless L s

theorem Good.refuse {skip : Bool} (h : s ∉ L)
    (hskip : skip = true → Hopeless L s) : Good L s (false, skip) :=
  ⟨⟨fun hf => (Bool.false_ne_true hf).elim, fun hs => (h hs).elim⟩, hskip⟩

theorem skipStars_cons (b : UInt8) (p : List UInt8) :
    skipStars (b :: p) = if b = 42 then skipStars p else b :: p := by
  simp only [skipStars, dropWhile_cons, beq_iff_eq]

theorem nil_mem_language_iff (p : List UInt8) :
    [] ∈ language char (tokens p) ↔ skipStars p = [] := by
  induction p with
  | nil =>
    rw [tokens, language_nil]
    exact ⟨fun _ => rfl, fun _ => rfl⟩
  | cons b p ih =>
    by_cases hb : b = 42
    · rw [tokens, if_pos hb, language_cons, Token.language, nil_mem_top_mul, ih, hb]
      rfl
    · obtain ⟨t, q, hone⟩ := exists_oneChar char hb p
      rw [hone.tokens_eq, language_cons, hone.language_eq]
      refine ⟨nofun, fun h => ?_⟩
      rw [skipStars_cons, if_neg hb] at h
      cases h

/-- Stars in a row count once. -/
theorem language_skipStars (p : List UInt8) :
    language char (.star :: tokens p) = language char (.star :: tokens (skipStars p)) := by
  induction p with
  | nil => rfl
  | cons b p ih =>
    by_cases hb : b = 42
    · rw [skipStars_cons, if_pos hb, ← ih, tokens, if_pos hb, language_cons, language_cons,
        Token.language, top_mul_top_mul]
    · rw [skipStars_cons, if_neg hb]

/-- The loop of a star, given that the search behind it is right. -/
theorem starLoop_good {nesting : Nat} (hnil : [] ∉ L) (hnesting : nesting < 1000)
    (hrest : ∀ s, s ≠ [] → Good L s (matchLoop char false p s false (nesting + 1)))
    (s : List UInt8) :
    Good (⊤ * L) s (starLoop char false p s false nesting) := by
  induction s with
  | nil =>
    have hhopeless : Hopeless (⊤ * L) [] := (hopeless_nil hnil).top_mul
    rw [starLoop]
    exact .refuse hhopeless.notMem fun _ => hhopeless
  | cons c s ih =>
    have hgood := hrest (c :: s) (cons_ne_nil c s)
    have himpl : stringmatchlenImpl char false p (c :: s) false (nesting + 1)
        = matchLoop char false p (c :: s) false (nesting + 1) := by
      rw [stringmatchlenImpl, if_neg (by omega)]
    rw [starLoop, himpl]
    generalize matchLoop char false p (c :: s) false (nesting + 1) = r at hgood
    obtain ⟨found, skip⟩ := r
    cases found with
    | true =>
      have hmem := hgood.mem_iff.mp rfl
      exact ⟨⟨fun _ => mem_top_mul_of_mem hmem, fun _ => rfl⟩,
        fun hskip => absurd hmem (hgood.hopeless hskip).notMem⟩
    | false =>
      have hnot : c :: s ∉ L := fun hmem => Bool.false_ne_true (hgood.mem_iff.mpr hmem)
      cases skip with
      | true =>
        have hhopeless := (hgood.hopeless rfl).top_mul
        exact .refuse hhopeless.notMem fun _ => hhopeless
      | false =>
        have hiff : c :: s ∈ (⊤ : Language UInt8) * L ↔ s ∈ (⊤ : Language UInt8) * L := by
          rw [cons_mem_top_mul, or_iff_right hnot]
        refine ⟨ih.mem_iff.trans hiff.symm, fun hskip => ?_⟩
        have hhopeless := ih.hopeless hskip
        exact hhopeless.cons fun hmem => hhopeless.notMem (hiff.mp hmem)

def stars (p : List UInt8) : Nat := (tokens p).countP fun t => t matches .star

theorem stars_cons_star (p : List UInt8) : stars (42 :: p) = stars p + 1 := by
  rw [stars, tokens, if_pos rfl, countP_cons_of_pos rfl, stars]

theorem stars_skipStars_le (p : List UInt8) : stars (skipStars p) ≤ stars p := by
  induction p with
  | nil => exact le_rfl
  | cons b p ih =>
    by_cases hb : b = 42
    · rw [skipStars_cons, if_pos hb, hb, stars_cons_star]
      omega
    · rw [skipStars_cons, if_neg hb]

theorem skipStars_head (p : List UInt8) : ∀ b q, skipStars p = b :: q → b ≠ 42 := by
  intro b q h hb
  have := List.head?_dropWhile_not (· == (42 : UInt8)) p
  rw [skipStars] at h
  rw [h] at this
  simp [hb] at this

/-- Induction on the pattern: a token leaves a shorter one, and so does a star. -/
theorem matchLoop_good (char : UInt8 → Int) (p : List UInt8) :
    ∀ s nesting, s ≠ [] → nesting + stars p ≤ 1000 →
    Good (language char (tokens p)) s (matchLoop char false p s false nesting) := by
  induction hn : p.length using Nat.strongRecOn generalizing p with
  | ind n ih =>
    intro s nesting hs hstars
    obtain ⟨c, s, rfl⟩ := exists_cons_of_ne_nil hs
    cases p with
    | nil =>
      rw [matchLoop, tokens, language_nil]
      exact .refuse (cons_ne_nil c s) nofun
    | cons b p =>
      by_cases hb : b = 42
      · subst hb
        rw [stars_cons_star] at hstars
        rw [matchLoop, if_pos rfl, tokens, if_pos rfl, language_skipStars]
        have hle := stars_skipStars_le p
        have hhead := skipStars_head p
        have hlen := length_skipStars_le p
        generalize skipStars p = rest at *
        cases rest with
        | nil =>
          rw [if_pos rfl, tokens, language_cons, language_nil, mul_one]
          exact ⟨⟨fun _ => trivial, fun _ => rfl⟩, fun h => (Bool.false_ne_true h).elim⟩
        | cons d q =>
          have hd := hhead d q rfl
          obtain ⟨t, q', hone⟩ := exists_oneChar char hd q
          have hnil : [] ∉ language char (tokens (d :: q)) := by
            rw [hone.tokens_eq, language_cons, hone.language_eq]
            exact nil_notMem_one_mul
          rw [if_neg (cons_ne_nil d q), language_cons]
          rw [length_cons] at hn
          exact starLoop_good hnil (by omega)
            (fun s hs => ih _ (by omega) (d :: q) rfl s (nesting + 1) hs (by omega)) (c :: s)
      · obtain ⟨t, q, hone⟩ := exists_oneChar char hb p
        have hq : stars q ≤ stars (b :: p) := by
          rw [stars, stars, hone.tokens_eq]
          exact (sublist_cons_self t (tokens q)).countP_le
        rw [hone.tokens_eq, language_cons, hone.language_eq]
        by_cases htakes : t.Takes char c
        · rw [hone.taken c s false nesting htakes, afterToken]
          split
          · rename_i hempty
            rw [hempty]
            refine ⟨?_, fun h => (Bool.false_ne_true h).elim⟩
            rw [cons_mem_one_mul, and_iff_right htakes, nil_mem_language_iff, List.isEmpty_iff]
          · rename_i hmore
            have hgood := ih _ (by rw [← hn]; exact hone.shorter) q rfl s nesting hmore (by omega)
            refine ⟨?_, fun h => (hgood.hopeless h).one_mul⟩
            rw [cons_mem_one_mul, and_iff_right htakes, hgood.mem_iff]
        · rw [hone.refused c s false nesting htakes]
          exact .refuse (fun h => htakes (cons_mem_one_mul.mp h).1) nofun

/-- The matcher is complete, and the flag is set only where no longer match is left. -/
theorem stringmatchlen_complete (char : UInt8 → Int) (p s : List UInt8) (hstars : stars p ≤ 1000)
    (hs : s ≠ []) : (stringmatchlen char false p s = true ↔ s ∈ language char (tokens p))
    ∧ ((stringmatchlenImpl char false p s false 0).2 = true → ∀ v, v <:+ s →
    v ∉ language char (tokens p)) := by
  have hgood := matchLoop_good char p s 0 hs (by omega)
  have himpl : stringmatchlenImpl char false p s false 0 = matchLoop char false p s false 0 := by
    rw [stringmatchlenImpl, if_neg (by decide)]
  rw [stringmatchlen, himpl]
  exact ⟨hgood.mem_iff, hgood.hopeless⟩

/-- The value of a signed `char`. -/
def signedChar (b : UInt8) : Int := if b.toNat < 128 then b.toNat else b.toNat - 256

/-- `"*[^a-c]"` matches `"ad"` and not `"ab"`. -/
theorem stringmatchlen_complete_class :
    stringmatchlen signedChar false [42, 91, 94, 97, 45, 99, 93] [97, 100] = true
    ∧ ¬ stringmatchlen signedChar false [42, 91, 94, 97, 45, 99, 93] [97, 98] = true := by
  have htokens : tokens [42, 91, 94, 97, 45, 99, 93] = [.star, .cls true [.range 97 99]] := by
    simp [tokens, negation, classItems]
  have hstars : stars [42, 91, 94, 97, 45, 99, 93] ≤ 1000 := by
    rw [stars, htokens]
    decide
  have htakes : ∀ c : UInt8, (Token.cls true [.range 97 99]).Takes signedChar c ↔
      ¬ (97 ≤ signedChar c ∧ signedChar c ≤ 99) := by
    intro c
    have hlow : min (signedChar 97) (signedChar 99) = 97 := rfl
    have hhigh : max (signedChar 97) (signedChar 99) = 99 := rfl
    simp only [Token.Takes, Item.Has, mem_singleton, exists_eq_left, hlow, hhigh,
      Bool.true_eq_false, iff_false]
  constructor
  · rw [(stringmatchlen_complete signedChar _ [97, 100] hstars (by decide)).1, htokens,
      language_cons, language_cons, language_nil]
    exact mem_top_mul.mpr ⟨[100], ⟨[97], rfl⟩,
      cons_mem_one_mul.mpr ⟨(htakes 100).mpr (by decide), rfl⟩⟩
  · rw [(stringmatchlen_complete signedChar _ [97, 98] hstars (by decide)).1, htokens,
      language_cons, language_cons,
      language_nil, Token.language, Token.language, cons_mem_top_mul, cons_mem_top_mul,
      nil_mem_top_mul, cons_mem_one_mul, cons_mem_one_mul, htakes, htakes]
    · rintro (⟨h, -⟩ | ⟨h, -⟩ | h)
      · exact h (by decide)
      · exact h (by decide)
      · exact nil_notMem_one_mul h
    · exact Token.noConfusion

end NexCache.Util.Glob
