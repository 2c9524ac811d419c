import Mathlib.Data.List.Forall2
import Xv6.User.Sh

/-! # The tokens of the shell

`lex` says what the tokens of a text are.  A list of tokens is a source for the parser too, and the
parser does the same on it as on the text in memory.
-/
namespace Xv6.User.Sh

/-! ## Two sources that agree -/

section
variable {σ σ' W W' : Type} {V : W → W' → Prop} {R : σ → σ' → Prop}

/-- The same command with words that are related by `V`. -/
inductive Cmd.Rel (V : W → W' → Prop) : Cmd W → Cmd W' → Prop
  | exec {argv argv'} (h : List.Forall₂ V argv argv') : Rel V (.exec argv) (.exec argv')
  | redir {cmd cmd' file file'} (mode fd : ℕ) (h : Rel V cmd cmd') (hfile : V file file') :
      Rel V (.redir cmd file mode fd) (.redir cmd' file' mode fd)
  | pipe {left left' right right'} (hl : Rel V left left') (hr : Rel V right right') :
      Rel V (.pipe left right) (.pipe left' right')
  | list {left left' right right'} (hl : Rel V left left') (hr : Rel V right right') :
      Rel V (.list left right) (.list left' right')
  | back {cmd cmd'} (h : Rel V cmd cmd') : Rel V (.back cmd) (.back cmd')

theorem Cmd.Rel.addArg {cmd : Cmd W} {cmd' : Cmd W'} {w : W} {w' : W'} (h : Cmd.Rel V cmd cmd')
    (hw : V w w') : Cmd.Rel V (cmd.addArg w) (cmd'.addArg w') := by
  induction h with
  | exec h => exact .exec (List.rel_append h (.cons hw .nil))
  | redir mode fd h hfile ih => exact .redir mode fd ih hfile
  | pipe hl hr => exact .pipe hl hr
  | list hl hr => exact .list hl hr
  | back h => exact .back h

theorem Cmd.Rel.redirect {cmd : Cmd W} {cmd' : Cmd W'} {w : W} {w' : W'} (tok : UInt8)
    (h : Cmd.Rel V cmd cmd') (hw : V w w') :
    Cmd.Rel V (redirect tok cmd w) (redirect tok cmd' w') := by
  unfold Sh.redirect
  split
  · exact .redir _ _ h hw
  · split
    · exact .redir _ _ h hw
    · split
      · exact .redir _ _ h hw
      · exact h

/-- Both sources give the same answers at related cursors. -/
structure Source.Sim (src : Source σ W) (src' : Source σ' W') (R : σ → σ' → Prop)
    (V : W → W' → Prop) : Prop where
  peek : ∀ toks {s s'}, toks ⊆ symbols → R s s' →
    (src.peek toks s).1 = (src'.peek toks s').1 ∧ R (src.peek toks s).2 (src'.peek toks s').2
  code : ∀ {s s'}, R s s' → (src.gettoken s).1 = (src'.gettoken s').1
  next : ∀ {s s'}, R s s' → R (src.gettoken s).2.2 (src'.gettoken s').2.2
  word : ∀ {s s'}, R s s' → (src.gettoken s).1 = WORD →
    V (src.gettoken s).2.1 (src'.gettoken s').2.1

/-- Two calls of the parser end in the same way. -/
inductive Agree (V : W → W' → Prop) (R : σ → σ' → Prop) :
    Except Stop (Cmd W × σ) → Except Stop (Cmd W' × σ') → Prop
  | ok {cmd cmd' s s'} (h : Cmd.Rel V cmd cmd') (hs : R s s') : Agree V R (.ok (cmd, s)) (.ok (cmd', s'))
  | error (e : Stop) : Agree V R (.error e) (.error e)

theorem Agree.bind {m : Except Stop (Cmd W × σ)} {m' : Except Stop (Cmd W' × σ')}
    {f : Cmd W × σ → Except Stop (Cmd W × σ)} {f' : Cmd W' × σ' → Except Stop (Cmd W' × σ')}
    (h : Agree V R m m')
    (hf : ∀ cmd cmd' s s', Cmd.Rel V cmd cmd' → R s s' → Agree V R (f (cmd, s)) (f' (cmd', s'))) :
    Agree V R (m >>= f) (m' >>= f') := by
  cases h with
  | ok h hs => exact hf _ _ _ _ h hs
  | error e => exact .error e

variable {src : Source σ W} {src' : Source σ' W'}

theorem parseredirs_agree (hsim : src.Sim src' R V) (fuel : ℕ) {cmd : Cmd W} {cmd' : Cmd W'} {s : σ}
    {s' : σ'} (hcmd : Cmd.Rel V cmd cmd') (h : R s s') :
    Agree V R (parseredirs src fuel cmd s) (parseredirs src' fuel cmd' s') := by
  induction fuel generalizing cmd cmd' s s' with
  | zero => exact .error _
  | succ fuel ih =>
    obtain ⟨hpeek, ht⟩ := hsim.peek [LT, GT] (by decide) h
    have hfile := hsim.next ht
    simp only [parseredirs]
    rw [← hpeek]
    split
    · rw [← hsim.code hfile, ← hsim.code ht]
      split
      · next hword => exact ih (hcmd.redirect _ (hsim.word hfile hword)) (hsim.next hfile)
      · exact .error _
    · exact .ok hcmd ht

theorem parseargs_agree (hsim : src.Sim src' R V) (fuel argc : ℕ) {cmd : Cmd W} {cmd' : Cmd W'}
    {s : σ} {s' : σ'} (hcmd : Cmd.Rel V cmd cmd') (h : R s s') :
    Agree V R (parseargs src fuel argc cmd s) (parseargs src' fuel argc cmd' s') := by
  induction fuel generalizing argc cmd cmd' s s' with
  | zero => exact .error _
  | succ fuel ih =>
    obtain ⟨hpeek, ht⟩ := hsim.peek [BAR, RPAREN, AMP, SEMI] (by decide) h
    simp only [parseargs]
    rw [← hpeek, ← hsim.code ht]
    split
    · exact .ok hcmd ht
    · split
      · exact .ok hcmd (hsim.next ht)
      · split
        · next hword =>
          split
          · exact .error _
          · apply Agree.bind (parseredirs_agree hsim fuel (hcmd.addArg (hsim.word ht hword))
              (hsim.next ht))
            intro c c' t t' hc ht
            exact ih (argc + 1) hc ht
        · exact .error _

theorem parsebacks_agree (hsim : src.Sim src' R V) (fuel : ℕ) {cmd : Cmd W} {cmd' : Cmd W'} {s : σ}
    {s' : σ'} (hcmd : Cmd.Rel V cmd cmd') (h : R s s') :
    Agree V R (parsebacks src fuel cmd s) (parsebacks src' fuel cmd' s') := by
  induction fuel generalizing cmd cmd' s s' with
  | zero => exact .error _
  | succ fuel ih =>
    obtain ⟨hpeek, ht⟩ := hsim.peek [AMP] (by decide) h
    simp only [parsebacks]
    rw [← hpeek]
    split
    · exact ih (.back hcmd) (hsim.next ht)
    · exact .ok hcmd ht

/-- The four functions that call each other agree, by induction on the fuel that they share. -/
theorem parse_agree (hsim : src.Sim src' R V) (fuel : ℕ) :
    (∀ s s', R s s' → Agree V R (parseline src fuel s) (parseline src' fuel s')) ∧
    (∀ s s', R s s' → Agree V R (parsepipe src fuel s) (parsepipe src' fuel s')) ∧
    (∀ s s', R s s' → Agree V R (parseexec src fuel s) (parseexec src' fuel s')) ∧
    (∀ s s', R s s' → Agree V R (parseblock src fuel s) (parseblock src' fuel s')) := by
  induction fuel with
  | zero =>
    refine ⟨?_, ?_, ?_, ?_⟩ <;>
    · intro s s' _
      exact .error _
  | succ fuel ih =>
    obtain ⟨hline, hpipe, hexec, hblock⟩ := ih
    refine ⟨?_, ?_, ?_, ?_⟩
    · intro s s' h
      simp only [parseline]
      apply Agree.bind (hpipe s s' h)
      intro c c' t t' hc ht
      apply Agree.bind (parsebacks_agree hsim fuel hc ht)
      intro c c' t t' hc ht
      obtain ⟨hpeek, ht⟩ := hsim.peek [SEMI] (by decide) ht
      dsimp only
      rw [← hpeek]
      split
      · apply Agree.bind (hline _ _ (hsim.next ht))
        intro r r' u u' hr hu
        exact .ok (.list hc hr) hu
      · exact .ok hc ht
    · intro s s' h
      simp only [parsepipe]
      apply Agree.bind (hexec s s' h)
      intro c c' t t' hc ht
      obtain ⟨hpeek, ht⟩ := hsim.peek [BAR] (by decide) ht
      dsimp only
      rw [← hpeek]
      split
      · apply Agree.bind (hpipe _ _ (hsim.next ht))
        intro r r' u u' hr hu
        exact .ok (.pipe hc hr) hu
      · exact .ok hc ht
    · intro s s' h
      obtain ⟨hpeek, ht⟩ := hsim.peek [LPAREN] (by decide) h
      simp only [parseexec]
      rw [← hpeek]
      split
      · exact hblock _ _ ht
      · apply Agree.bind (parseredirs_agree hsim fuel (.exec .nil) ht)
        intro c c' t t' hc ht
        exact parseargs_agree hsim fuel 0 hc ht
    · intro s s' h
      obtain ⟨hpeek, ht⟩ := hsim.peek [LPAREN] (by decide) h
      simp only [parseblock]
      rw [← hpeek]
      split
      · apply Agree.bind (hline _ _ (hsim.next ht))
        intro c c' t t' hc ht
        obtain ⟨hclose, ht⟩ := hsim.peek [RPAREN] (by decide) ht
        dsimp only
        rw [← hclose]
        split
        · exact parseredirs_agree hsim fuel hc (hsim.next ht)
        · exact .error _
      · exact .error _

end

/-! ## The tokens of a text -/

inductive Tok
  | word (w : List UInt8)
  | bar | lparen | rparen | semi | amp | lt | gt | gtgt
  deriving DecidableEq

/-- The token that a symbol stands for by itself. -/
def symbolTok (c : UInt8) : Option Tok :=
  if c = BAR then some .bar
  else if c = LPAREN then some .lparen
  else if c = RPAREN then some .rparen
  else if c = SEMI then some .semi
  else if c = AMP then some .amp
  else if c = LT then some .lt
  else if c = GT then some .gt
  else none

/-- Blanks are skipped, a symbol is a token except that `>>` is one, and a word is as long as it
can be. -/
def lex : List UInt8 → List Tok
  | [] => []
  | c :: rest =>
    if isBlank c then lex rest
    else if c = GT ∧ rest.head? = some GT then .gtgt :: lex rest.tail
    else
      match symbolTok c with
      | some t => t :: lex rest
      | none => .word (c :: rest.takeWhile inWord) :: lex (rest.dropWhile inWord)
termination_by l => l.length
decreasing_by
  · exact Nat.lt_succ_self _
  · exact Nat.lt_succ_of_le (List.tail_sublist rest).length_le
  · exact Nat.lt_succ_self _
  · exact Nat.lt_succ_of_le (List.dropWhile_sublist inWord).length_le

/-- The first character of a symbol. -/
def Tok.first : Tok → Option UInt8
  | .word _ => none
  | .bar => some BAR
  | .lparen => some LPAREN
  | .rparen => some RPAREN
  | .semi => some SEMI
  | .amp => some AMP
  | .lt => some LT
  | .gt => some GT
  | .gtgt => some GT

def Tok.code : Tok → UInt8
  | .word _ => WORD
  | .bar => BAR
  | .lparen => LPAREN
  | .rparen => RPAREN
  | .semi => SEMI
  | .amp => AMP
  | .lt => LT
  | .gt => GT
  | .gtgt => APPEND

def Tok.text : Tok → List UInt8
  | .word w => w
  | _ => []

/-- Whether the next token starts with one of the characters. -/
def startsIn (toks : List UInt8) (ts : List Tok) : Bool :=
  (ts.head?.bind Tok.first).any toks.contains

/-- The parser on a list of tokens. -/
def tokens : Source (List Tok) (List UInt8) where
  peek toks ts := (startsIn toks ts, ts)
  gettoken
    | [] => (0, [], [])
    | t :: ts => (t.code, t.text, ts)

theorem lex_nil : lex [] = [] := by rw [lex]

theorem lex_blank {c : UInt8} (h : isBlank c = true) (rest : List UInt8) :
    lex (c :: rest) = lex rest := by
  rw [lex, if_pos h]

theorem lex_skip (l : List UInt8) : lex (l.dropWhile isBlank) = lex l := by
  induction l with
  | nil => rfl
  | cons c l ih =>
    by_cases h : isBlank c = true
    · rw [List.dropWhile_cons_of_pos h, ih, lex_blank h]
    · rw [List.dropWhile_cons_of_neg h]

theorem length_lex_le (l : List UInt8) : (lex l).length ≤ l.length := by
  fun_induction lex l with
  | case1 => exact Nat.le_refl 0
  | case2 c rest h ih =>
    rw [List.length_cons]
    omega
  | case3 c rest h hgt ih =>
    rw [List.length_cons, List.length_cons]
    rw [List.length_tail] at ih
    omega
  | case4 c rest h hgt t ht ih =>
    rw [List.length_cons, List.length_cons]
    omega
  | case5 c rest h hgt ht ih =>
    have hdrop : (rest.dropWhile inWord).length ≤ rest.length :=
      (List.dropWhile_sublist inWord).length_le
    rw [List.length_cons, List.length_cons]
    omega

/-! ## The text in memory -/

/-- The text `l` is what is left from `s` to `es`. -/
structure Rest (mem : Mem) (es s : ℕ) (l : List UInt8) : Prop where
  holds : Holds mem s (l ++ [0])
  stop : es = s + l.length
  nonzero : 0 ∉ l
  pos : 0 < s

/-- The word from `w.1` to `w.2` has the text `t`, and ends there. -/
structure Spans (mem : Mem) (es : ℕ) (w : ℕ × ℕ) (t : List UInt8) : Prop where
  holds : Holds mem w.1 t
  finish : w.2 = w.1 + t.length
  le : w.2 ≤ es
  inside : ∀ c ∈ t, inWord c = true ∧ c ≠ 0
  outside : w.2 = es ∨ inWord (mem w.2) = false
  pos : 0 < w.1

section
variable {mem : Mem} {es s : ℕ} {l l' : List UInt8} {c : UInt8}

theorem Rest.drop (h : Rest mem es s (l ++ l')) : Rest mem es (s + l.length) l' where
  holds := by
    have := h.holds
    rw [List.append_assoc] at this
    exact (holds_append.mp this).2
  stop := by rw [h.stop, List.length_append, Nat.add_assoc]
  nonzero hm := h.nonzero (List.mem_append_right l hm)
  pos := Nat.lt_of_lt_of_le h.pos (Nat.le_add_right _ _)

theorem Rest.head (h : Rest mem es s (c :: l)) : mem s = c := (holds_cons.mp h.holds).1

theorem Rest.tail (h : Rest mem es s (c :: l)) : Rest mem es (s + 1) l :=
  Rest.drop (l := [c]) h

theorem Rest.head_ne_zero (h : Rest mem es s (c :: l)) : c ≠ 0 := by
  rintro rfl
  exact h.nonzero (List.mem_cons_self ..)

theorem Rest.eq_stop (h : Rest mem es s l) : s = es ↔ l = [] := by
  rw [h.stop, ← List.length_eq_zero_iff]
  omega

theorem Rest.mem_stop (h : Rest mem es s []) : mem s = 0 := (holds_cons.mp h.holds).1

/-- A loop over characters goes as far as the text has them. -/
theorem Rest.scan_eq (h : Rest mem es s l) (p : UInt8 → Bool) :
    scan mem p (es - s) s = s + (l.takeWhile p).length := by
  have hn : es - s = l.length := by rw [h.stop, Nat.add_sub_cancel_left]
  rw [hn]
  clear hn
  induction l generalizing s with
  | nil => rfl
  | cons c l ih =>
    rw [List.length_cons, scan, h.head]
    split
    · next hc =>
      rw [ih h.tail, List.takeWhile_cons_of_pos hc, List.length_cons, Nat.add_assoc,
        Nat.add_comm 1]
    · next hc => rw [List.takeWhile_cons_of_neg hc, List.length_nil, Nat.add_zero]

theorem Rest.skip (h : Rest mem es s l) (p : UInt8 → Bool) :
    Rest mem es (scan mem p (es - s) s) (l.dropWhile p) := by
  rw [h.scan_eq p]
  apply Rest.drop
  rwa [List.takeWhile_append_dropWhile]

/-- What a text starts with. -/
structure Starts (l : List UInt8) (t : Tok) (used rest : List UInt8) : Prop where
  text : l = used ++ rest
  lex : lex l = t :: Sh.lex rest
  word : t.code = WORD → t.text = used ∧ (∀ c ∈ used, inWord c = true) ∧
    ∀ c ∈ rest.head?, inWord c = false

theorem symbolTok_first {t : Tok} (h : symbolTok c = some t) : t.first = some c := by
  unfold symbolTok at h
  split_ifs at h <;> cases h <;> subst_vars <;> rfl

theorem symbolTok_code {t : Tok} (h : symbolTok c = some t) : t.code = c ∧ t.code ≠ WORD := by
  unfold symbolTok at h
  split_ifs at h <;> cases h <;> subst_vars <;> decide

theorem symbolTok_eq_none : symbolTok c = none ↔ symbols.contains c = false := by
  unfold symbolTok
  split_ifs <;> simp_all [symbols, BAR, LPAREN, RPAREN, SEMI, AMP, LT, GT]

theorem Rest.symbolAt (h : Rest mem es s (c :: l)) (hc : (symbolTok c).isSome)
    (hgt : ¬ (c = GT ∧ l.head? = some GT)) : tokenAt mem es s = (c, s + 1) := by
  unfold tokenAt
  rw [h.head]
  dsimp only
  rw [if_neg h.head_ne_zero]
  by_cases h1 : [BAR, LPAREN, RPAREN, SEMI, AMP, LT].contains c = true
  · rw [if_pos h1]
  · have hcGT : c = GT := by
      unfold symbolTok at hc
      split_ifs at hc <;> simp_all
    -- the byte after the symbol is the next one of the text, or the zero at its end
    have hnext : mem (s + 1) ≠ GT := by
      cases l with
      | nil =>
        rw [h.tail.mem_stop]
        decide
      | cons d l =>
        rw [h.tail.head]
        rintro rfl
        exact hgt ⟨hcGT, rfl⟩
    rw [if_neg h1, if_pos hcGT, if_neg hnext]

theorem Rest.wordAt (h : Rest mem es s (c :: l)) (hc : symbols.contains c = false) :
    tokenAt mem es s = (WORD, scan mem inWord (es - s) s) := by
  have hne : ∀ d ∈ symbols, c ≠ d := by
    rintro d hd rfl
    rw [List.contains_eq_mem, decide_eq_false_iff_not] at hc
    exact hc hd
  have h1 : ¬ [BAR, LPAREN, RPAREN, SEMI, AMP, LT].contains c = true := by
    rw [List.contains_eq_mem, decide_eq_true_iff]
    intro hm
    exact hne c ((by decide : [BAR, LPAREN, RPAREN, SEMI, AMP, LT] ⊆ symbols) hm) rfl
  unfold tokenAt
  rw [h.head]
  dsimp only
  rw [if_neg h.head_ne_zero, if_neg h1, if_neg (hne GT (by decide))]

/-- A text whose first character is not a blank starts with a token, which `gettoken` sees. -/
theorem Rest.token (h : Rest mem es s (c :: l)) (hc : isBlank c = false) :
    ∃ t used rest, Starts (c :: l) t used rest ∧ tokenAt mem es s = (t.code, s + used.length) ∧
      ∀ toks ⊆ symbols, toks.contains c = t.first.any toks.contains := by
  have hblank : ¬ isBlank c = true := by
    rw [hc]
    exact Bool.false_ne_true
  by_cases hgt : c = GT ∧ l.head? = some GT
  · obtain ⟨rfl, hhead⟩ := hgt
    obtain ⟨l, rfl⟩ := List.head?_eq_some_iff.mp hhead
    refine ⟨.gtgt, [GT, GT], l, ⟨rfl, ?_, fun hw => absurd hw (by decide)⟩, ?_, fun _ _ => rfl⟩
    · rw [lex, if_neg hblank, if_pos ⟨rfl, rfl⟩, List.tail_cons]
    · unfold tokenAt
      rw [h.head, h.tail.head]
      rfl
  · cases hsym : symbolTok c with
    | some t =>
      obtain ⟨hcode, hword⟩ := symbolTok_code hsym
      refine ⟨t, [c], l, ⟨rfl, ?_, fun hw => absurd hw hword⟩, ?_, ?_⟩
      · rw [lex, if_neg hblank, if_neg hgt, hsym]
      · rw [hcode]
        exact h.symbolAt (by rw [hsym]; rfl) hgt
      · intro toks _
        rw [symbolTok_first hsym]
        rfl
    | none =>
      have hnot := symbolTok_eq_none.mp hsym
      have hin : inWord c = true := by
        unfold inWord
        unfold isBlank at hc
        rw [hc, hnot]
        rfl
      refine ⟨.word (c :: l.takeWhile inWord), c :: l.takeWhile inWord, l.dropWhile inWord,
        ⟨?_, ?_, fun _ => ⟨rfl, ?_, ?_⟩⟩, ?_, ?_⟩
      · rw [List.cons_append, List.takeWhile_append_dropWhile]
      · rw [lex, if_neg hblank, if_neg hgt, hsym]
      · intro d hd
        rcases List.mem_cons.mp hd with rfl | hd
        · exact hin
        · exact List.all_eq_true.mp List.all_takeWhile d hd
      · intro d hd
        have := List.head?_dropWhile_not inWord l
        rw [Option.mem_def.mp hd] at this
        exact this
      · rw [h.wordAt hnot, h.scan_eq, List.takeWhile_cons_of_pos hin]
        rfl
      · intro toks hsub
        change toks.contains c = false
        rw [List.contains_eq_mem, decide_eq_false_iff_not]
        intro hm
        have := hsub hm
        rw [List.contains_eq_mem, decide_eq_false_iff_not] at hnot
        exact hnot this

/-! ## The parser in memory is the parser on tokens -/

/-- The tokens that are left at a cursor. -/
def Reads (mem : Mem) (es s : ℕ) (ts : List Tok) : Prop := ∃ l, Rest mem es s l ∧ lex l = ts

theorem head_dropWhile_isBlank {l' : List UInt8} (h : l.dropWhile isBlank = c :: l') :
    isBlank c = false := by
  have := List.head?_dropWhile_not isBlank l
  rw [h] at this
  exact this

theorem input_sim (mem : Mem) (es : ℕ) :
    (input mem es).Sim tokens (Reads mem es) (Spans mem es) := by
  -- every function of the source skips blanks first
  have hcases : ∀ {s ts}, Reads mem es s ts →
      ∃ l, Rest mem es (scan mem isBlank (es - s) s) l ∧ lex l = ts ∧
        ∀ c l', l = c :: l' → isBlank c = false := by
    rintro s ts ⟨l, hrest, rfl⟩
    exact ⟨_, hrest.skip isBlank, lex_skip l, fun c l' => head_dropWhile_isBlank⟩
  have htoken : ∀ {s ts}, Reads mem es s ts →
      (gettoken mem es s).1 = (tokens.gettoken ts).1 ∧
      Reads mem es (gettoken mem es s).2.2 (tokens.gettoken ts).2.2 ∧
      ((gettoken mem es s).1 = WORD → Spans mem es (gettoken mem es s).2.1 (tokens.gettoken ts).2.1) := by
    intro s ts h
    obtain ⟨l, hrest, rfl, hblank⟩ := hcases h
    generalize hq : scan mem isBlank (es - s) s = q at hrest
    unfold gettoken
    rw [hq]
    cases l with
    | nil =>
      have h0 : tokenAt mem es q = (0, q) := by
        unfold tokenAt
        rw [hrest.mem_stop]
        rfl
      rw [lex_nil]
      dsimp only
      rw [h0]
      exact ⟨rfl, ⟨_, hrest.skip isBlank, lex_nil⟩, fun hw => absurd hw (by decide : (0 : UInt8) ≠ WORD)⟩
    | cons c l =>
      obtain ⟨t, used, rest, hstarts, htok, -⟩ := hrest.token (hblank c l rfl)
      have hused : Rest mem es (q + used.length) rest := by
        apply Rest.drop
        rw [← hstarts.text]
        exact hrest
      rw [hstarts.lex]
      dsimp only
      rw [htok]
      refine ⟨rfl, ⟨_, hused.skip isBlank, lex_skip rest⟩, fun hw => ?_⟩
      obtain ⟨htext, hin, hout⟩ := hstarts.word hw
      have hholds := hrest.holds
      have hzero := hrest.nonzero
      rw [hstarts.text] at hholds hzero
      rw [List.append_assoc] at hholds
      change Spans mem es (q, q + used.length) t.text
      rw [htext]
      refine ⟨(holds_append.mp hholds).1, rfl, ?_, ?_, ?_, hrest.pos⟩
      · rw [hused.stop]
        exact Nat.le_add_right _ _
      · intro d hd
        refine ⟨hin d hd, ?_⟩
        rintro rfl
        exact hzero (List.mem_append_left rest hd)
      · cases rest with
        | nil => exact .inl hused.stop.symm
        | cons d rest =>
          right
          change inWord (mem (q + used.length)) = false
          rw [hused.head]
          exact hout d rfl
  constructor
  · intro toks s ts hsub h
    obtain ⟨l, hrest, rfl, hblank⟩ := hcases h
    change (peek mem es toks s).1 = startsIn toks (lex l) ∧ Reads mem es (peek mem es toks s).2 (lex l)
    refine ⟨?_, l, hrest, rfl⟩
    unfold peek
    dsimp only
    cases l with
    | nil =>
      rw [hrest.mem_stop, lex_nil]
      rfl
    | cons c l =>
      obtain ⟨t, used, rest, hstarts, -, hfirst⟩ := hrest.token (hblank c l rfl)
      rw [hrest.head, bne_iff_ne.mpr hrest.head_ne_zero, Bool.true_and, hstarts.lex, hfirst toks hsub]
      rfl
  · exact fun h => (htoken h).1
  · exact fun h => (htoken h).2.1
  · exact fun h => (htoken h).2.2

end

end Xv6.User.Sh
