import Xv6.User.Ulib

/-! # The parser of the shell

The parsing functions of sh.c.  They see their input through `peek` and `gettoken`, so they are
written for any source of tokens; the source of the shell is the memory between a cursor and `es`.
A call is given fuel, and stops when that runs out.
-/
namespace Xv6.User.Sh

def MAXARGS : ℕ := 10

def whitespace : List UInt8 := [' ', '\t', '\r', '\n', '\x0b'].map Char.toUInt8
def symbols : List UInt8 := ['<', '|', '>', '&', ';', '(', ')'].map Char.toUInt8

def BAR : UInt8 := '|'.toUInt8
def LPAREN : UInt8 := '('.toUInt8
def RPAREN : UInt8 := ')'.toUInt8
def SEMI : UInt8 := ';'.toUInt8
def AMP : UInt8 := '&'.toUInt8
def LT : UInt8 := '<'.toUInt8
def GT : UInt8 := '>'.toUInt8
def APPEND : UInt8 := '+'.toUInt8
def WORD : UInt8 := 'a'.toUInt8

def O_RDONLY : ℕ := 0x000
def O_WRONLY : ℕ := 0x001
def O_CREATE : ℕ := 0x200
def O_TRUNC : ℕ := 0x400

/-- Parsed command representation, with words of type `W`. -/
inductive Cmd (W : Type)
  | exec (argv : List W)
  | redir (cmd : Cmd W) (file : W) (mode fd : ℕ)
  | pipe (left right : Cmd W)
  | list (left right : Cmd W)
  | back (cmd : Cmd W)
  deriving DecidableEq

inductive Stop
  | panic (msg : String)
  | outOfFuel
  deriving DecidableEq

/-- Where tokens come from: whether one of some characters is next, and the next token with its code
and its text. -/
structure Source (σ W : Type) where
  peek : List UInt8 → σ → Bool × σ
  gettoken : σ → UInt8 × W × σ

section
variable {σ W : Type}

/-- One more argument of the `execcmd` inside of the redirections. -/
def Cmd.addArg (w : W) : Cmd W → Cmd W
  | .exec argv => .exec (argv ++ [w])
  | .redir cmd file mode fd => .redir (cmd.addArg w) file mode fd
  | cmd => cmd

/-- The switch of `parseredirs`. -/
def redirect (tok : UInt8) (cmd : Cmd W) (file : W) : Cmd W :=
  if tok = LT then .redir cmd file O_RDONLY 0
  else if tok = GT then .redir cmd file (O_WRONLY ||| O_CREATE ||| O_TRUNC) 1
  else if tok = APPEND then .redir cmd file (O_WRONLY ||| O_CREATE) 1
  else cmd

variable (src : Source σ W)

def parseredirs : ℕ → Cmd W → σ → Except Stop (Cmd W × σ)
  | 0, _, _ => .error .outOfFuel
  | fuel + 1, cmd, s =>
    let p := src.peek [LT, GT] s
    if p.1 then
      let tok := src.gettoken p.2
      let file := src.gettoken tok.2.2
      if file.1 = WORD then parseredirs fuel (redirect tok.1 cmd file.2.1) file.2.2
      else .error (.panic "missing file for redirection")
    else .ok (cmd, p.2)

/-- The loop of `parseexec`. -/
def parseargs : ℕ → ℕ → Cmd W → σ → Except Stop (Cmd W × σ)
  | 0, _, _, _ => .error .outOfFuel
  | fuel + 1, argc, ret, s =>
    let p := src.peek [BAR, RPAREN, AMP, SEMI] s
    if p.1 then .ok (ret, p.2)
    else
      let tok := src.gettoken p.2
      if tok.1 = 0 then .ok (ret, tok.2.2)
      else if tok.1 = WORD then
        if MAXARGS ≤ argc + 1 then .error (.panic "too many args")
        else do
          let r ← parseredirs src fuel (ret.addArg tok.2.1) tok.2.2
          parseargs fuel (argc + 1) r.1 r.2
      else .error (.panic "syntax")

/-- The loop of `parseline`. -/
def parsebacks : ℕ → Cmd W → σ → Except Stop (Cmd W × σ)
  | 0, _, _ => .error .outOfFuel
  | fuel + 1, cmd, s =>
    let p := src.peek [AMP] s
    if p.1 then parsebacks fuel (.back cmd) (src.gettoken p.2).2.2 else .ok (cmd, p.2)

mutual

def parseline : ℕ → σ → Except Stop (Cmd W × σ)
  | 0, _ => .error .outOfFuel
  | fuel + 1, s => do
    let r ← parsepipe fuel s
    let r ← parsebacks src fuel r.1 r.2
    let p := src.peek [SEMI] r.2
    if p.1 then do
      let right ← parseline fuel (src.gettoken p.2).2.2
      .ok (.list r.1 right.1, right.2)
    else .ok (r.1, p.2)

def parsepipe : ℕ → σ → Except Stop (Cmd W × σ)
  | 0, _ => .error .outOfFuel
  | fuel + 1, s => do
    let r ← parseexec fuel s
    let p := src.peek [BAR] r.2
    if p.1 then do
      let right ← parsepipe fuel (src.gettoken p.2).2.2
      .ok (.pipe r.1 right.1, right.2)
    else .ok (r.1, p.2)

def parseexec : ℕ → σ → Except Stop (Cmd W × σ)
  | 0, _ => .error .outOfFuel
  | fuel + 1, s =>
    let p := src.peek [LPAREN] s
    if p.1 then parseblock fuel p.2
    else do
      let r ← parseredirs src fuel (.exec []) p.2
      parseargs src fuel 0 r.1 r.2

def parseblock : ℕ → σ → Except Stop (Cmd W × σ)
  | 0, _ => .error .outOfFuel
  | fuel + 1, s =>
    let p := src.peek [LPAREN] s
    if p.1 then do
      let r ← parseline fuel (src.gettoken p.2).2.2
      let q := src.peek [RPAREN] r.2
      if q.1 then parseredirs src fuel r.1 (src.gettoken q.2).2.2
      else .error (.panic "syntax - missing )")
    else .error (.panic "parseblock")

end

end

/-! ## The tokens in memory -/

/-- `while(n > 0 && p(*s)) s++`, where `n` bytes are left before `es`. -/
def scan (mem : Mem) (p : UInt8 → Bool) : (n s : ℕ) → ℕ
  | 0, s => s
  | n + 1, s => if p (mem s) then scan mem p n (s + 1) else s

def isBlank (c : UInt8) : Bool := whitespace.contains c

def inWord (c : UInt8) : Bool := !whitespace.contains c && !symbols.contains c

/-- The code of the token at `q` and where it ends. -/
def tokenAt (mem : Mem) (es q : ℕ) : UInt8 × ℕ :=
  let c := mem q
  if c = 0 then (c, q)
  else if [BAR, LPAREN, RPAREN, SEMI, AMP, LT].contains c then (c, q + 1)
  else if c = GT then if mem (q + 1) = GT then (APPEND, q + 2) else (c, q + 1)
  else (WORD, scan mem inWord (es - q) q)

/-- A word is given by `q` and `eq`. -/
def gettoken (mem : Mem) (es s : ℕ) : UInt8 × (ℕ × ℕ) × ℕ :=
  let q := scan mem isBlank (es - s) s
  let t := tokenAt mem es q
  (t.1, (q, t.2), scan mem isBlank (es - t.2) t.2)

def peek (mem : Mem) (es : ℕ) (toks : List UInt8) (s : ℕ) : Bool × ℕ :=
  let s := scan mem isBlank (es - s) s
  (mem s != 0 && toks.contains (mem s), s)

def input (mem : Mem) (es : ℕ) : Source ℕ (ℕ × ℕ) := ⟨peek mem es, gettoken mem es⟩

/-! ## parsecmd -/

/-- NUL-terminate the words of a command; `argv` ends at a null pointer. -/
def nulterminate (mem : Mem) : Cmd (ℕ × ℕ) → Mem
  | .exec argv =>
    (argv.takeWhile fun w => w.1 != 0).foldl (fun mem w => Function.update mem w.2 0) mem
  | .redir cmd file _ _ => Function.update (nulterminate mem cmd) file.2 0
  | .pipe left right => nulterminate (nulterminate mem left) right
  | .list left right => nulterminate (nulterminate mem left) right
  | .back cmd => nulterminate mem cmd

def parsecmd (mem : Mem) (fuel s : ℕ) : Except Stop (Cmd (ℕ × ℕ) × Mem) := do
  let es := s + strlen mem fuel s
  let r ← parseline (input mem es) fuel s
  let s := (peek mem es [] r.2).2
  if s = es then .ok (r.1, nulterminate mem r.1) else .error (.panic "syntax")

/-- The command with the strings that its words point to. -/
def Cmd.text (mem : Mem) (n : ℕ) : Cmd (ℕ × ℕ) → Cmd (List UInt8)
  | .exec argv => .exec (argv.map fun w => cstring mem n w.1)
  | .redir cmd file mode fd => .redir (cmd.text mem n) (cstring mem n file.1) mode fd
  | .pipe left right => .pipe (left.text mem n) (right.text mem n)
  | .list left right => .list (left.text mem n) (right.text mem n)
  | .back cmd => .back (cmd.text mem n)

end Xv6.User.Sh
