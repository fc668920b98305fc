import Xv6.Schemes.CString

/-! @src sh.c ulib.c fcntl.h | name:The shell's parser | layer:model

    The parser keeps one cursor into the command line. `peek` skips whitespace and looks at the next
    character, `gettoken` takes the next token. A pointer into the line is its offset, and a function
    that moves the cursor returns where it left it. Fuel bounds the recursion. -/

namespace Xv6.Shell
open Xv6.Schemes

abbrev Byte := BitVec 8

abbrev MAXARGS : ℕ := 10

abbrev O_RDONLY : ℕ := 0x000

abbrev O_WRONLY : ℕ := 0x001

abbrev O_CREATE : ℕ := 0x200

/-- `struct cmd`. A word is the pair of its pointers, `argv` and `eargv` or `file` and `efile`. -/
inductive Cmd where
  | exec (argv : List (ℕ × ℕ))
  | redir (cmd : Cmd) (file efile : ℕ) (mode fd : ℕ)
  | pipe (left right : Cmd)
  | list (left right : Cmd)
  | back (cmd : Cmd)
  deriving DecidableEq

/-- How a call ends that does not return: in `panic`, or out of fuel. -/
inductive Stop where
  | panic (msg : String)
  | more
  deriving DecidableEq

abbrev Run := Except Stop

/-! ### Tokens -/

def whitespace : List Byte := [ascii ' ', ascii '\t', ascii '\r', ascii '\n', 11]

def symbols : List Byte :=
  [ascii '<', ascii '|', ascii '>', ascii '&', ascii ';', ascii '(', ascii ')']

/-- `strchr` is not null. -/
def strchr (s : List Byte) (c : Byte) : Bool := decide (c ∈ s)

/-- `*s`, the NUL included. -/
def char (s : CString) (p : ℕ) : Byte := s.chars.getD p 0

/-- `while(s < es && f(*s)) s++`, where the rest of the string is given. -/
def scan (f : Byte → Bool) : List Byte → ℕ → ℕ
  | [], p => p
  | c :: t, p => if f c then scan f t (p + 1) else p

attribute [grind =] scan

/-- Over whitespace. -/
def skip (s : CString) (p : ℕ) : ℕ := scan (strchr whitespace) (s.chars.drop p) p

/-- A character of a word. -/
def inWord (c : Byte) : Bool := !strchr whitespace c && !strchr symbols c

/-- Over a word. -/
def word (s : CString) (p : ℕ) : ℕ := scan inWord (s.chars.drop p) p

/-- What `gettoken` returns and stores to `q` and `eq`. -/
structure Token where
  ret : Byte
  q : ℕ
  eq : ℕ
  deriving DecidableEq

/-- The `switch` of `gettoken`. -/
def lexeme (s : CString) (q : ℕ) : Token :=
  if char s q = 0 then ⟨char s q, q, q⟩
  else if char s q ∈ [ascii '|', ascii '(', ascii ')', ascii ';', ascii '&', ascii '<'] then
    ⟨char s q, q, q + 1⟩
  else if char s q = ascii '>' then
    if char s (q + 1) = ascii '>' then ⟨ascii '+', q, q + 2⟩ else ⟨char s q, q, q + 1⟩
  else ⟨ascii 'a', q, word s q⟩

/-- `gettoken`: the token, and the cursor behind it. -/
def gettoken (s : CString) (ps : ℕ) : Token × ℕ :=
  let t := lexeme s (skip s ps)
  (t, skip s t.eq)

/-- `peek`: whether the next character is one of `toks`, and the cursor at it. -/
def peek (s : CString) (ps : ℕ) (toks : List Byte) : Bool × ℕ :=
  let p := skip s ps
  (char s p ≠ 0 && strchr toks (char s p), p)

/-! ### Commands -/

/-- The `switch` of `parseredirs`, which wraps the command in `redircmd`. -/
def redirect (tok : Byte) (cmd : Cmd) (file : Token) : Cmd :=
  if tok = ascii '<' then .redir cmd file.q file.eq O_RDONLY 0
  else if tok = ascii '>' then .redir cmd file.q file.eq (O_WRONLY ||| O_CREATE) 1
  else if tok = ascii '+' then .redir cmd file.q file.eq (O_WRONLY ||| O_CREATE) 1
  else cmd

/-- `parseredirs`. -/
def parseredirs : ℕ → CString → Cmd → ℕ → Run (Cmd × ℕ)
  | 0, _, _, _ => .error .more
  | fuel + 1, s, cmd, ps =>
    let p := peek s ps [ascii '<', ascii '>']
    if p.1 then
      let tok := gettoken s p.2
      let file := gettoken s tok.2
      if file.1.ret ≠ ascii 'a' then .error (.panic "missing file for redirection")
      else parseredirs fuel s (redirect tok.1.ret cmd file.1) file.2
    else .ok (cmd, p.2)

/-- A store to `argv` and `eargv` of the simple command under the redirections. -/
def Cmd.arg (w : ℕ × ℕ) : Cmd → Cmd
  | .exec argv => .exec (argv ++ [w])
  | .redir cmd file efile mode fd => .redir (cmd.arg w) file efile mode fd
  | cmd => cmd

/-- The loop of `parseexec`, over the words. -/
def parseargs : ℕ → CString → Cmd → ℕ → ℕ → Run (Cmd × ℕ)
  | 0, _, _, _, _ => .error .more
  | fuel + 1, s, ret, argc, ps =>
    let p := peek s ps [ascii '|', ascii ')', ascii '&', ascii ';']
    if p.1 then .ok (ret, p.2)
    else
      let t := gettoken s p.2
      if t.1.ret = 0 then .ok (ret, t.2)
      else if t.1.ret ≠ ascii 'a' then .error (.panic "syntax")
      else if MAXARGS ≤ argc + 1 then .error (.panic "too many args")
      else do
        let r ← parseredirs fuel s (ret.arg (t.1.q, t.1.eq)) t.2
        parseargs fuel s r.1 (argc + 1) r.2

/-- The loop of `parseline`, over `&`. -/
def parsebacks : ℕ → CString → Cmd → ℕ → Run (Cmd × ℕ)
  | 0, _, _, _ => .error .more
  | fuel + 1, s, cmd, ps =>
    let p := peek s ps [ascii '&']
    if p.1 then parsebacks fuel s (.back cmd) (gettoken s p.2).2 else .ok (cmd, p.2)

mutual

/-- `parseline`. -/
def parseline : ℕ → CString → ℕ → Run (Cmd × ℕ)
  | 0, _, _ => .error .more
  | fuel + 1, s, ps => do
    let c ← parsepipe fuel s ps
    let b ← parsebacks fuel s c.1 c.2
    let p := peek s b.2 [ascii ';']
    if p.1 then
      let l ← parseline fuel s (gettoken s p.2).2
      .ok (.list b.1 l.1, l.2)
    else .ok (b.1, p.2)
termination_by structural fuel => fuel

/-- `parsepipe`. -/
def parsepipe : ℕ → CString → ℕ → Run (Cmd × ℕ)
  | 0, _, _ => .error .more
  | fuel + 1, s, ps => do
    let c ← parseexec fuel s ps
    let p := peek s c.2 [ascii '|']
    if p.1 then
      let r ← parsepipe fuel s (gettoken s p.2).2
      .ok (.pipe c.1 r.1, r.2)
    else .ok (c.1, p.2)
termination_by structural fuel => fuel

/-- `parseexec`. -/
def parseexec : ℕ → CString → ℕ → Run (Cmd × ℕ)
  | 0, _, _ => .error .more
  | fuel + 1, s, ps =>
    let p := peek s ps [ascii '(']
    if p.1 then parseblock fuel s p.2
    else do
      let r ← parseredirs fuel s (.exec []) p.2
      parseargs fuel s r.1 0 r.2
termination_by structural fuel => fuel

/-- `parseblock`. -/
def parseblock : ℕ → CString → ℕ → Run (Cmd × ℕ)
  | 0, _, _ => .error .more
  | fuel + 1, s, ps =>
    let p := peek s ps [ascii '(']
    if p.1 then do
      let r ← parseline fuel s (gettoken s p.2).2
      let p := peek s r.2 [ascii ')']
      if p.1 then parseredirs fuel s r.1 (gettoken s p.2).2
      else .error (.panic "syntax - missing )")
    else .error (.panic "parseblock")
termination_by structural fuel => fuel

end

/-! ### NUL-terminating the words -/

/-- `*p = 0`. -/
def put (buf : List Byte) (p : ℕ) : Option (List Byte) :=
  if p < buf.length then some (buf.set p 0) else none

/-- `nulterminate`. -/
def nulterminate : Cmd → List Byte → Option (List Byte)
  | .exec argv, buf => argv.foldlM (fun buf w => put buf w.2) buf
  | .redir cmd _ efile _ _, buf => (nulterminate cmd buf).bind (put · efile)
  | .pipe left right, buf => (nulterminate left buf).bind (nulterminate right)
  | .list left right, buf => (nulterminate left buf).bind (nulterminate right)
  | .back cmd, buf => nulterminate cmd buf

/-- `parsecmd`: the command, and the line's buffer, if no store is outside it. -/
def parsecmd (fuel : ℕ) (s : CString) : Run (Cmd × Option (List Byte)) := do
  let r ← parseline fuel s 0
  let p := peek s r.2 []
  if p.2 ≠ s.chars.length then .error (.panic "syntax")
  else .ok (r.1, nulterminate r.1 (s.chars ++ [0]))

end Xv6.Shell
