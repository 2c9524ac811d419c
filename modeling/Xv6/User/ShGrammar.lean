import Mathlib.Data.List.Induction
import Mathlib.Logic.Function.Iterate
import Xv6.User.ShTokens

/-! # The grammar of the shell

```
line := pipe '&'* [';' line]
pipe := exec ['|' pipe]
exec := '(' line ')' redir* | redir* (word redir*)*
redir := ('<' | '>' | '>>') word
```

A simple command has at most `MAXARGS - 1` words.  The parser accepts the texts whose tokens derive
from `line`, and returns the command that the derivation stands for.
-/
namespace Xv6.User.Sh

inductive Kind
  | input | output | append
  deriving DecidableEq

def Kind.tok : Kind → Tok
  | .input => .lt
  | .output => .gt
  | .append => .gtgt

def Kind.mode : Kind → ℕ
  | .input => O_RDONLY
  | .output => O_WRONLY ||| O_CREATE ||| O_TRUNC
  | .append => O_WRONLY ||| O_CREATE

def Kind.fd : Kind → ℕ
  | .input => 0
  | .output => 1
  | .append => 1

structure Redir where
  kind : Kind
  file : List UInt8
  deriving DecidableEq

abbrev Tree := Cmd (List UInt8)

/-- A word of a simple command and the redirections after it. -/
abbrev Arg := List UInt8 × List Redir

def redirToks (rs : List Redir) : List Tok := rs.flatMap fun r => [r.kind.tok, .word r.file]

def argToks (args : List Arg) : List Tok := args.flatMap fun a => .word a.1 :: redirToks a.2

/-- Redirections are applied in order, so that the last one is outermost. -/
def wraps (cmd : Tree) (rs : List Redir) : Tree :=
  rs.foldl (fun cmd r => .redir cmd r.file r.kind.mode r.kind.fd) cmd

def backs (k : ℕ) (cmd : Tree) : Tree := Cmd.back^[k] cmd

inductive Sym
  | line | pipe | exec

/-- The tokens derive from the symbol, and stand for the command. -/
inductive Derives : Sym → List Tok → Tree → Prop
  | line {ts T} (k : ℕ) (h : Derives .pipe ts T) :
      Derives .line (ts ++ List.replicate k .amp) (backs k T)
  | seq {ts ts' T T'} (k : ℕ) (h : Derives .pipe ts T) (h' : Derives .line ts' T') :
      Derives .line (ts ++ List.replicate k .amp ++ .semi :: ts') (.list (backs k T) T')
  | one {ts T} (h : Derives .exec ts T) : Derives .pipe ts T
  | more {ts ts' T T'} (h : Derives .exec ts T) (h' : Derives .pipe ts' T') :
      Derives .pipe (ts ++ .bar :: ts') (.pipe T T')
  | block {ts T} (rs : List Redir) (h : Derives .line ts T) :
      Derives .exec (.lparen :: ts ++ .rparen :: redirToks rs) (wraps T rs)
  | simple (rs : List Redir) (args : List Arg) (h : args.length ≤ MAXARGS - 1) :
      Derives .exec (redirToks rs ++ argToks args)
        (wraps (.exec (args.map (·.1))) (rs ++ args.flatMap (·.2)))

/-! ## What one step of the parser sees -/

section
variable {ts rest : List Tok} {cmd T : Tree} {fuel : ℕ}

theorem wraps_append (cmd : Tree) (rs rs' : List Redir) :
    wraps cmd (rs ++ rs') = wraps (wraps cmd rs) rs' := List.foldl_append

theorem addArg_wraps (w : List UInt8) (ws : List (List UInt8)) (rs : List Redir) :
    (wraps (.exec ws) rs).addArg w = wraps (.exec (ws ++ [w])) rs := by
  induction rs using List.reverseRecOn with
  | nil => rfl
  | append_singleton rs r ih =>
    rw [wraps_append, wraps_append, ← ih]
    rfl

theorem startsIn_redir (h : startsIn [LT, GT] ts = true) : ∃ (k : Kind) (ts' : List Tok), ts = k.tok :: ts' := by
  match ts with
  | [] => cases h
  | .lt :: ts' => exact ⟨.input, ts', rfl⟩
  | .gt :: ts' => exact ⟨.output, ts', rfl⟩
  | .gtgt :: ts' => exact ⟨.append, ts', rfl⟩
  | .word _ :: _ | .bar :: _ | .lparen :: _ | .rparen :: _ | .semi :: _ | .amp :: _ => cases h

/-- A symbol other than `>` is told by its character. -/
theorem Tok.eq_of_first {t t' : Tok} (ht : t.first = some t.code) (hgt : t ≠ .gt)
    (h : t'.first = some t.code) : t' = t := by
  cases t <;> first | exact absurd rfl hgt | cases ht
  all_goals cases t' <;> first | rfl | cases h

theorem startsIn_code {t : Tok} (ht : t.first = some t.code) (hgt : t ≠ .gt)
    (h : startsIn [t.code] ts = true) : ∃ ts', ts = t :: ts' := by
  cases ts with
  | nil => cases h
  | cons t' ts' =>
    refine ⟨ts', ?_⟩
    unfold startsIn at h
    rw [List.head?_cons, Option.bind_some, Option.any_eq_true] at h
    obtain ⟨d, hd, hm⟩ := h
    rw [List.contains_eq_mem, decide_eq_true_iff, List.mem_singleton] at hm
    rw [Tok.eq_of_first ht hgt (hd.trans (congrArg some hm))]

theorem peek_false {toks : List UInt8} (h : startsIn toks ts = false) :
    ¬ (tokens.peek toks ts).1 = true := by
  change ¬ startsIn toks ts = true
  rw [h]
  exact Bool.false_ne_true

theorem parseredirs_stop (h : startsIn [LT, GT] ts = false) :
    parseredirs tokens (fuel + 1) cmd ts = .ok (cmd, ts) := by
  rw [parseredirs]
  exact if_neg (peek_false h)

theorem parseredirs_one (r : Redir) :
    parseredirs tokens (fuel + 1) cmd (r.kind.tok :: .word r.file :: rest) =
      parseredirs tokens fuel (.redir cmd r.file r.kind.mode r.kind.fd) rest := by
  obtain ⟨kind, file⟩ := r
  cases kind <;> rfl

theorem parsebacks_stop (h : startsIn [AMP] ts = false) :
    parsebacks tokens (fuel + 1) cmd ts = .ok (cmd, ts) := by
  rw [parsebacks]
  exact if_neg (peek_false h)

theorem parsebacks_one :
    parsebacks tokens (fuel + 1) cmd (.amp :: rest) = parsebacks tokens fuel (.back cmd) rest := rfl

end

/-! ## Every call ends, and what it accepts derives -/

/-- The call ends with a command and a rest that satisfy `P`, or it panics. -/
def Ends (m : Except Stop (Tree × List Tok)) (P : Tree → List Tok → Prop) : Prop :=
  match m with
  | .ok r => P r.1 r.2
  | .error (.panic _) => True
  | .error .outOfFuel => False

section
variable {m : Except Stop (Tree × List Tok)} {f : Tree × List Tok → Except Stop (Tree × List Tok)}
  {P Q : Tree → List Tok → Prop}

theorem Ends.bind (h : Ends m P) (hf : ∀ T rest, P T rest → Ends (f (T, rest)) Q) :
    Ends (m >>= f) Q := by
  match m, h with
  | .ok (T, rest), h => exact hf T rest h
  | .error (.panic _), _ => exact trivial

theorem Ends.mono (h : Ends m P) (hPQ : ∀ T rest, P T rest → Q T rest) : Ends m Q := by
  match m, h with
  | .ok (T, rest), h => exact hPQ T rest h
  | .error (.panic _), _ => exact trivial

end

section
variable {ts : List Tok} {cmd : Tree} {fuel : ℕ}

theorem parseredirs_ends (hfuel : ts.length < fuel) :
    Ends (parseredirs tokens fuel cmd ts) fun T rest =>
      ∃ rs, ts = redirToks rs ++ rest ∧ T = wraps cmd rs := by
  induction fuel generalizing cmd ts with
  | zero => exact absurd hfuel (Nat.not_lt_zero _)
  | succ fuel ih =>
    cases hs : startsIn [LT, GT] ts with
    | false =>
      rw [parseredirs_stop hs]
      exact ⟨[], rfl, rfl⟩
    | true =>
      obtain ⟨kind, ts, rfl⟩ := startsIn_redir hs
      match ts with
      | .word file :: ts =>
        rw [parseredirs_one ⟨kind, file⟩]
        rw [List.length_cons, List.length_cons] at hfuel
        apply (ih (by omega)).mono
        rintro T rest ⟨rs, rfl, rfl⟩
        exact ⟨⟨kind, file⟩ :: rs, rfl, rfl⟩
      | [] | .bar :: _ | .lparen :: _ | .rparen :: _ | .semi :: _ | .amp :: _ | .lt :: _ | .gt :: _
      | .gtgt :: _ => cases kind <;> exact trivial

theorem parseargs_ends (ws : List (List UInt8)) (rs : List Redir) (hfuel : ts.length < fuel)
    (hws : ws.length ≤ MAXARGS - 1) :
    Ends (parseargs tokens fuel ws.length (wraps (.exec ws) rs) ts) fun T rest =>
      ∃ args : List Arg, ts = argToks args ++ rest ∧
        T = wraps (.exec (ws ++ args.map (·.1))) (rs ++ args.flatMap (·.2)) ∧
        ws.length + args.length ≤ MAXARGS - 1 := by
  induction fuel generalizing ws rs ts with
  | zero => exact absurd hfuel (Nat.not_lt_zero _)
  | succ fuel ih =>
    have hstop : ∀ ts, ∃ args : List Arg, ts = argToks args ++ ts ∧
        wraps (.exec ws) rs = wraps (.exec (ws ++ args.map (·.1))) (rs ++ args.flatMap (·.2)) ∧
        ws.length + args.length ≤ MAXARGS - 1 := fun _ =>
      ⟨[], rfl, by rw [List.map_nil, List.flatMap_nil, List.append_nil, List.append_nil], hws⟩
    match ts with
    | [] => exact hstop []
    | .bar :: _ | .rparen :: _ | .semi :: _ | .amp :: _ => exact hstop _
    | .lparen :: _ | .lt :: _ | .gt :: _ | .gtgt :: _ => exact trivial
    | .word w :: ts =>
      change Ends (if MAXARGS ≤ ws.length + 1 then .error (.panic "too many args") else do
        let r ← parseredirs tokens fuel ((wraps (.exec ws) rs).addArg w) ts
        parseargs tokens fuel (ws.length + 1) r.1 r.2) _
      rw [List.length_cons] at hfuel
      split
      · exact trivial
      · next hroom =>
        have hlen : (ws ++ [w]).length = ws.length + 1 := List.length_append
        rw [addArg_wraps]
        apply (parseredirs_ends (by omega)).bind
        rintro T rest ⟨rs', rfl, rfl⟩
        rw [← wraps_append, ← hlen]
        rw [List.length_append] at hfuel
        apply (ih (ws ++ [w]) (rs ++ rs') (by change rest.length < _; omega) (by omega)).mono
        rintro T rest ⟨args, rfl, rfl, hcount⟩
        refine ⟨(w, rs') :: args, ?_, ?_, ?_⟩
        · change _ = .word w :: redirToks rs' ++ argToks args ++ rest
          rw [List.cons_append, List.cons_append, List.append_assoc]
        · rw [List.map_cons, List.flatMap_cons, List.append_assoc, List.append_assoc]
          rfl
        · rw [List.length_cons]
          omega

theorem parsebacks_ends (hfuel : ts.length < fuel) :
    Ends (parsebacks tokens fuel cmd ts) fun T rest =>
      ∃ k, ts = List.replicate k .amp ++ rest ∧ T = backs k cmd := by
  induction fuel generalizing cmd ts with
  | zero => exact absurd hfuel (Nat.not_lt_zero _)
  | succ fuel ih =>
    cases hs : startsIn [AMP] ts with
    | false =>
      rw [parsebacks_stop hs]
      exact ⟨0, rfl, rfl⟩
    | true =>
      obtain ⟨ts, rfl⟩ := startsIn_code (t := .amp) rfl (by simp) hs
      rw [parsebacks_one]
      rw [List.length_cons] at hfuel
      apply (ih (by omega)).mono
      rintro T rest ⟨k, rfl, rfl⟩
      exact ⟨k + 1, rfl, rfl⟩

/-- The function for a symbol. -/
def Sym.parse : Sym → ℕ → List Tok → Except Stop (Tree × List Tok)
  | .line => parseline tokens
  | .pipe => parsepipe tokens
  | .exec => parseexec tokens

/-- Fuel that suffices for `n` tokens. -/
def Sym.need : Sym → ℕ → ℕ
  | .line, n => 4 * n + 4
  | .pipe, n => 4 * n + 3
  | .exec, n => 4 * n + 2

/-- What is read derives from the symbol. -/
def Reading (x : Sym) (ts : List Tok) (T : Tree) (rest : List Tok) : Prop :=
  ∃ used, ts = used ++ rest ∧ Derives x used T

theorem parse_ends (fuel : ℕ) :
    (∀ x ts, x.need ts.length ≤ fuel → Ends (x.parse fuel ts) (Reading x ts)) ∧
    (∀ ts, 4 * ts.length + 1 ≤ fuel → startsIn [LPAREN] ts = true →
      Ends (parseblock tokens fuel ts) (Reading .exec ts)) := by
  induction fuel with
  | zero =>
    refine ⟨fun x ts h => ?_, fun ts h => absurd h (by omega)⟩
    cases x <;> exact absurd h (Nat.not_succ_le_zero _)
  | succ fuel ih =>
    obtain ⟨ihsym, ihblock⟩ := ih
    refine ⟨fun x ts h => ?_, fun ts h hs => ?_⟩
    · cases x with
      | line =>
        change 4 * ts.length + 4 ≤ fuel + 1 at h
        change Ends (parseline tokens (fuel + 1) ts) _
        rw [parseline]
        apply (ihsym .pipe ts (by change 4 * _ + 3 ≤ _; omega)).bind
        rintro T rest ⟨used, rfl, hT⟩
        rw [List.length_append] at h
        apply (parsebacks_ends (by dsimp only; omega)).bind
        rintro _ rest' ⟨k, hrest, rfl⟩
        dsimp only at hrest
        subst hrest
        rw [List.length_append] at h
        cases hs : startsIn [SEMI] rest' with
        | false =>
          dsimp only
          rw [if_neg (peek_false hs)]
          exact ⟨_, (List.append_assoc ..).symm, .line k hT⟩
        | true =>
          obtain ⟨rest', rfl⟩ := startsIn_code (t := .semi) rfl (by simp) hs
          rw [List.length_cons] at h
          apply (ihsym .line rest' (by change 4 * _ + 4 ≤ _; omega)).bind
          rintro T' rest ⟨used', rfl, hT'⟩
          refine ⟨_, ?_, .seq k hT hT'⟩
          rw [List.append_assoc, List.append_assoc, List.cons_append]
      | pipe =>
        change 4 * ts.length + 3 ≤ fuel + 1 at h
        change Ends (parsepipe tokens (fuel + 1) ts) _
        rw [parsepipe]
        apply (ihsym .exec ts (by change 4 * _ + 2 ≤ _; omega)).bind
        rintro T rest ⟨used, rfl, hT⟩
        rw [List.length_append] at h
        cases hs : startsIn [BAR] rest with
        | false =>
          dsimp only
          rw [if_neg (peek_false hs)]
          exact ⟨used, rfl, .one hT⟩
        | true =>
          obtain ⟨rest, rfl⟩ := startsIn_code (t := .bar) rfl (by simp) hs
          rw [List.length_cons] at h
          apply (ihsym .pipe rest (by change 4 * _ + 3 ≤ _; omega)).bind
          rintro T' rest ⟨used', rfl, hT'⟩
          refine ⟨_, ?_, .more hT hT'⟩
          rw [List.append_assoc, List.cons_append]
      | exec =>
        change 4 * ts.length + 2 ≤ fuel + 1 at h
        change Ends (parseexec tokens (fuel + 1) ts) _
        rw [parseexec]
        cases hs : startsIn [LPAREN] ts with
        | true =>
          rw [if_pos (show (tokens.peek [LPAREN] ts).1 = true from hs)]
          exact ihblock ts (by omega) hs
        | false =>
          rw [if_neg (peek_false hs)]
          apply (parseredirs_ends (by change ts.length < _; omega)).bind
          rintro _ rest ⟨rs, hts, rfl⟩
          change ts = _ at hts
          subst hts
          rw [List.length_append] at h
          apply (parseargs_ends [] rs (by change rest.length < _; omega) (by decide)).mono
          rintro T rest ⟨args, rfl, rfl, hcount⟩
          refine ⟨_, (List.append_assoc ..).symm, .simple rs args ?_⟩
          rw [List.length_nil] at hcount
          omega
    · obtain ⟨ts, rfl⟩ := startsIn_code (t := .lparen) rfl (by simp) hs
      rw [List.length_cons] at h
      rw [parseblock]
      apply (ihsym .line ts (by change 4 * _ + 4 ≤ _; omega)).bind
      rintro T rest ⟨used, rfl, hT⟩
      rw [List.length_append] at h
      cases hclose : startsIn [RPAREN] rest with
      | false =>
        dsimp only
        rw [if_neg (peek_false hclose)]
        exact trivial
      | true =>
        obtain ⟨rest, rfl⟩ := startsIn_code (t := .rparen) rfl (by simp) hclose
        rw [List.length_cons] at h
        apply (parseredirs_ends (by change rest.length < _; omega)).mono
        rintro _ rest' ⟨rs, hrest, rfl⟩
        change rest = _ at hrest
        subst hrest
        refine ⟨_, ?_, .block rs hT⟩
        rw [List.cons_append, List.cons_append, List.append_assoc, List.cons_append]

end

/-! ## What derives is accepted -/

/-- The tokens that can follow what derives from a symbol. -/
def Sym.follow : Sym → List Tok
  | .line => [.rparen]
  | .pipe => [.amp, .semi, .rparen]
  | .exec => [.bar, .amp, .semi, .rparen]

def Sym.Stops (x : Sym) (rest : List Tok) : Prop := ∀ t ∈ rest.head?, t ∈ x.follow

section
variable {ts rest : List Tok} {cmd T : Tree} {fuel : ℕ} {x : Sym}

theorem Sym.Stops.startsIn (h : x.Stops rest) {toks : List UInt8}
    (hx : ∀ t ∈ x.follow, t.first.any toks.contains = false) : startsIn toks rest = false := by
  cases rest with
  | nil => rfl
  | cons t rest => exact hx t (h t rfl)

theorem startsIn_argToks (args : List Arg) (h : Sym.exec.Stops rest) :
    startsIn [LT, GT] (argToks args ++ rest) = false ∧
      startsIn [LPAREN] (argToks args ++ rest) = false := by
  cases args with
  | nil => exact ⟨h.startsIn (by decide), h.startsIn (by decide)⟩
  | cons a args => exact ⟨rfl, rfl⟩

theorem parseredirs_complete (rs : List Redir) (h : startsIn [LT, GT] rest = false)
    (hfuel : (redirToks rs ++ rest).length < fuel) :
    parseredirs tokens fuel cmd (redirToks rs ++ rest) = .ok (wraps cmd rs, rest) := by
  induction rs generalizing cmd fuel with
  | nil =>
    obtain ⟨fuel, rfl⟩ := Nat.exists_eq_succ_of_ne_zero (Nat.ne_of_gt (Nat.zero_lt_of_lt hfuel))
    exact parseredirs_stop h
  | cons r rs ih =>
    obtain ⟨fuel, rfl⟩ := Nat.exists_eq_succ_of_ne_zero (Nat.ne_of_gt (Nat.zero_lt_of_lt hfuel))
    change (r.kind.tok :: .word r.file :: (redirToks rs ++ rest)).length < _ at hfuel
    rw [List.length_cons, List.length_cons] at hfuel
    exact (parseredirs_one r).trans (ih (by omega))

theorem parseargs_complete (ws : List (List UInt8)) (rs : List Redir) (args : List Arg)
    (h : Sym.exec.Stops rest) (hcount : ws.length + args.length ≤ MAXARGS - 1)
    (hfuel : (argToks args ++ rest).length < fuel) :
    parseargs tokens fuel ws.length (wraps (.exec ws) rs) (argToks args ++ rest) =
      .ok (wraps (.exec (ws ++ args.map (·.1))) (rs ++ args.flatMap (·.2)), rest) := by
  induction args generalizing ws rs fuel with
  | nil =>
    obtain ⟨fuel, rfl⟩ := Nat.exists_eq_succ_of_ne_zero (Nat.ne_of_gt (Nat.zero_lt_of_lt hfuel))
    rw [List.map_nil, List.flatMap_nil, List.append_nil, List.append_nil]
    cases rest with
    | nil => rfl
    | cons t rest =>
      have hend : startsIn [BAR, RPAREN, AMP, SEMI] (t :: rest) = true :=
        (by decide : ∀ t ∈ Sym.exec.follow,
          t.first.any [BAR, RPAREN, AMP, SEMI].contains = true) t (h t rfl)
      exact if_pos hend
  | cons a args ih =>
    obtain ⟨fuel, rfl⟩ := Nat.exists_eq_succ_of_ne_zero (Nat.ne_of_gt (Nat.zero_lt_of_lt hfuel))
    have hsplit : argToks (a :: args) ++ rest =
        .word a.1 :: (redirToks a.2 ++ (argToks args ++ rest)) := by
      change .word a.1 :: redirToks a.2 ++ argToks args ++ rest = _
      rw [List.cons_append, List.cons_append, List.append_assoc]
    have hlen : (ws ++ [a.1]).length = ws.length + 1 := List.length_append
    have hroom : ¬ MAXARGS ≤ ws.length + 1 := by
      rw [List.length_cons] at hcount
      have : 0 < MAXARGS := by decide
      omega
    rw [hsplit] at hfuel ⊢
    rw [List.length_cons] at hfuel hcount
    change (if MAXARGS ≤ ws.length + 1 then .error (.panic "too many args") else do
      let r ← parseredirs tokens fuel ((wraps (.exec ws) rs).addArg a.1)
        (redirToks a.2 ++ (argToks args ++ rest))
      parseargs tokens fuel (ws.length + 1) r.1 r.2) = _
    rw [if_neg hroom, addArg_wraps,
      parseredirs_complete a.2 (startsIn_argToks args h).1 (by omega)]
    change parseargs tokens fuel (ws.length + 1) _ _ = _
    rw [List.length_append] at hfuel
    rw [← wraps_append, ← hlen, ih (ws ++ [a.1]) (rs ++ a.2) (by omega) (by omega), List.map_cons,
      List.flatMap_cons, List.append_assoc, List.append_assoc]
    rfl

theorem parsebacks_complete (k : ℕ) (h : startsIn [AMP] rest = false)
    (hfuel : (List.replicate k Tok.amp ++ rest).length < fuel) :
    parsebacks tokens fuel cmd (List.replicate k .amp ++ rest) = .ok (backs k cmd, rest) := by
  induction k generalizing cmd fuel with
  | zero =>
    obtain ⟨fuel, rfl⟩ := Nat.exists_eq_succ_of_ne_zero (Nat.ne_of_gt (Nat.zero_lt_of_lt hfuel))
    exact parsebacks_stop h
  | succ k ih =>
    obtain ⟨fuel, rfl⟩ := Nat.exists_eq_succ_of_ne_zero (Nat.ne_of_gt (Nat.zero_lt_of_lt hfuel))
    rw [List.replicate_succ, List.cons_append, List.length_cons] at hfuel
    exact parsebacks_one.trans (ih (by omega))

theorem stops_amps (k : ℕ) (h : ∀ t ∈ rest.head?, t ∈ Sym.pipe.follow) :
    Sym.pipe.Stops (List.replicate k .amp ++ rest) := by
  cases k with
  | zero => exact h
  | succ k =>
    rintro t ⟨⟩
    decide

/-- Each function reads what derives from its symbol, by induction on the derivation. -/
theorem Derives.parse {x : Sym} {ts : List Tok} {T : Tree} (h : Derives x ts T) :
    ∀ rest fuel, x.Stops rest → x.need (ts ++ rest).length ≤ fuel →
      x.parse fuel (ts ++ rest) = .ok (T, rest) := by
  induction h with
  | @line ts T k h ih =>
    intro rest fuel hstop hfuel
    change 4 * _ + 4 ≤ fuel at hfuel
    obtain ⟨fuel, rfl⟩ := Nat.exists_eq_succ_of_ne_zero (Nat.ne_of_gt (Nat.zero_lt_of_lt hfuel))
    have hpipe : Sym.pipe.Stops (List.replicate k .amp ++ rest) :=
      stops_amps k fun t ht => (by decide : Sym.line.follow ⊆ Sym.pipe.follow) (hstop t ht)
    rw [List.append_assoc] at hfuel ⊢
    have hT := ih _ fuel hpipe (by change 4 * _ + 3 ≤ _; omega)
    change parsepipe tokens fuel _ = _ at hT
    change parseline tokens (fuel + 1) _ = _
    rw [List.length_append] at hfuel
    rw [parseline, hT]
    change (parsebacks tokens fuel T _ >>= _) = _
    rw [parsebacks_complete k (hstop.startsIn (by decide)) (by omega)]
    exact if_neg (peek_false (hstop.startsIn (by decide)))
  | @seq ts ts' T T' k h h' ih ih' =>
    intro rest fuel hstop hfuel
    change 4 * _ + 4 ≤ fuel at hfuel
    obtain ⟨fuel, rfl⟩ := Nat.exists_eq_succ_of_ne_zero (Nat.ne_of_gt (Nat.zero_lt_of_lt hfuel))
    have hpipe : Sym.pipe.Stops (List.replicate k .amp ++ .semi :: (ts' ++ rest)) :=
      stops_amps k (by rintro t ⟨⟩; decide)
    rw [List.append_assoc, List.append_assoc, List.cons_append] at hfuel ⊢
    have hT := ih _ fuel hpipe (by change 4 * _ + 3 ≤ _; omega)
    change parsepipe tokens fuel _ = _ at hT
    change parseline tokens (fuel + 1) _ = _
    rw [List.length_append] at hfuel
    rw [parseline, hT]
    change (parsebacks tokens fuel T _ >>= _) = _
    rw [parsebacks_complete k rfl (by omega)]
    rw [List.length_append, List.length_cons] at hfuel
    have hT' := ih' rest fuel hstop (by change 4 * _ + 4 ≤ _; omega)
    change (parseline tokens fuel (ts' ++ rest) >>= _) = _
    change parseline tokens fuel _ = _ at hT'
    rw [hT']
    rfl
  | @one ts T h ih =>
    intro rest fuel hstop hfuel
    change 4 * _ + 3 ≤ fuel at hfuel
    obtain ⟨fuel, rfl⟩ := Nat.exists_eq_succ_of_ne_zero (Nat.ne_of_gt (Nat.zero_lt_of_lt hfuel))
    have hexec : Sym.exec.Stops rest := fun t ht =>
      (by decide : Sym.pipe.follow ⊆ Sym.exec.follow) (hstop t ht)
    have hT := ih rest fuel hexec (by change 4 * _ + 2 ≤ _; omega)
    change parseexec tokens fuel _ = _ at hT
    change parsepipe tokens (fuel + 1) _ = _
    rw [parsepipe, hT]
    exact if_neg (peek_false (hstop.startsIn (by decide)))
  | @more ts ts' T T' h h' ih ih' =>
    intro rest fuel hstop hfuel
    change 4 * _ + 3 ≤ fuel at hfuel
    obtain ⟨fuel, rfl⟩ := Nat.exists_eq_succ_of_ne_zero (Nat.ne_of_gt (Nat.zero_lt_of_lt hfuel))
    have hexec : Sym.exec.Stops (.bar :: (ts' ++ rest)) := by
      rintro t ⟨⟩
      decide
    rw [List.append_assoc, List.cons_append] at hfuel ⊢
    have hT := ih _ fuel hexec (by change 4 * _ + 2 ≤ _; omega)
    change parseexec tokens fuel _ = _ at hT
    change parsepipe tokens (fuel + 1) _ = _
    rw [List.length_append, List.length_cons] at hfuel
    have hT' := ih' rest fuel hstop (by change 4 * _ + 3 ≤ _; omega)
    change parsepipe tokens fuel _ = _ at hT'
    rw [parsepipe, hT]
    change (parsepipe tokens fuel (ts' ++ rest) >>= _) = _
    rw [hT']
    rfl
  | @block ts T rs h ih =>
    intro rest fuel hstop hfuel
    change 4 * _ + 2 ≤ fuel at hfuel
    obtain ⟨fuel, rfl⟩ := Nat.exists_eq_add_of_le' (show 2 ≤ fuel by omega)
    have hline : Sym.line.Stops (.rparen :: (redirToks rs ++ rest)) := by
      rintro t ⟨⟩
      decide
    rw [List.append_assoc, List.cons_append, List.cons_append, List.length_cons] at hfuel
    have hT := ih _ fuel hline (by change 4 * _ + 4 ≤ _; omega)
    change parseline tokens fuel _ = _ at hT
    rw [List.append_assoc, List.cons_append, List.cons_append]
    change parseblock tokens (fuel + 1) (.lparen :: (ts ++ .rparen :: (redirToks rs ++ rest))) = _
    change (parseline tokens fuel (ts ++ .rparen :: (redirToks rs ++ rest)) >>= _) = _
    rw [hT]
    rw [List.length_append, List.length_cons] at hfuel
    exact parseredirs_complete rs (hstop.startsIn (by decide)) (by omega)
  | simple rs args h =>
    intro rest fuel hstop hfuel
    change 4 * _ + 2 ≤ fuel at hfuel
    obtain ⟨fuel, rfl⟩ := Nat.exists_eq_succ_of_ne_zero (Nat.ne_of_gt (Nat.zero_lt_of_lt hfuel))
    rw [List.append_assoc] at hfuel ⊢
    have hpeek : startsIn [LPAREN] (redirToks rs ++ (argToks args ++ rest)) = false := by
      cases rs with
      | nil => exact (startsIn_argToks args hstop).2
      | cons r rs =>
        obtain ⟨kind, file⟩ := r
        cases kind <;> rfl
    change parseexec tokens (fuel + 1) _ = _
    rw [parseexec, if_neg (peek_false hpeek)]
    change (parseredirs tokens fuel (.exec []) (redirToks rs ++ (argToks args ++ rest)) >>= _) = _
    rw [parseredirs_complete rs (startsIn_argToks args hstop).1 (by omega)]
    rw [List.length_append] at hfuel
    exact parseargs_complete [] rs args hstop
      (by rw [List.length_nil, Nat.zero_add]; exact h) (by omega)

end

end Xv6.User.Sh
