import WorkspaceRelease.Text.Basic

/-!
External commands and how they end.
-/

namespace WorkspaceRelease

structure Invocation where
  program : Text
  args : List Text
  deriving DecidableEq, Repr

def tagName (version : Text) : Text := 'v' :: version

namespace Invocation

/-- The words with a space between them; nothing is quoted. -/
def display (i : Invocation) : Text := Text.joinWith [' '] (i.program :: i.args)

def commit (version : Text) : Invocation :=
  ⟨"git".toList, ["commit".toList, "-a".toList, "-m".toList, tagName version]⟩

def tag (version : Text) : Invocation := ⟨"git".toList, ["tag".toList, tagName version]⟩

def publish (package : Text) : Invocation :=
  ⟨"cargo".toList, ["publish".toList, "-p".toList, package]⟩

end Invocation

inductive ExitStatus where
  | exited (code : Nat)
  /-- A core dump may be left behind. -/
  | signalled (number : Nat) (dumped : Bool)
  | stopped (number : Nat)
  /-- A status word that tells nothing of the above. -/
  | unknown (word : Nat)
  deriving DecidableEq, Repr

namespace ExitStatus

/-- A status word holds the signal in its seven low bits, the mark of a core dump above them and the
exit code in the byte after that. -/
def ofWord (word : Nat) : ExitStatus :=
  let number := word % 128
  let high := word / 256 % 256
  if number = 0 then .exited high
  else if number ≠ 127 then .signalled number (word / 128 % 2 = 1)
  else if word % 256 = 127 then .stopped high
  else .unknown word

def word : ExitStatus → Nat
  | exited code => 256 * code
  | signalled number dumped => number + 128 * dumped.toNat
  | stopped number => 256 * number + 127
  | unknown word => word

def isSuccess : ExitStatus → Bool
  | exited code => code = 0
  | _ => false

def signals : List (Nat × Text) :=
  [(1, "HUP"), (2, "INT"), (3, "QUIT"), (4, "ILL"), (5, "TRAP"), (6, "ABRT"), (7, "BUS"), (8, "FPE"),
   (9, "KILL"), (10, "USR1"), (11, "SEGV"), (12, "USR2"), (13, "PIPE"), (14, "ALRM"), (15, "TERM"),
   (16, "STKFLT"), (17, "CHLD"), (18, "CONT"), (19, "STOP"), (20, "TSTP"), (21, "TTIN"), (22, "TTOU"),
   (23, "URG"), (24, "XCPU"), (25, "XFSZ"), (26, "VTALRM"), (27, "PROF"), (28, "WINCH"), (29, "IO"),
   (30, "PWR"), (31, "SYS")].map fun (number, name) => (number, name.toList)

/-- The greatest number of a signal; those without a name are free for any use. -/
def lastSignal : Nat := 64

/-- Whether a process ends when it receives the signal and has not asked for anything else. -/
def isDeadly (number : Nat) : Bool :=
  0 < number && number ≤ lastSignal && !([17, 18, 19, 20, 21, 22, 23, 28] : List Nat).contains number

def displaySignal (number : Nat) : Text :=
  Text.ofNat number ++
    match signals.lookup number with
    | some name => " (SIG".toList ++ name ++ [')']
    | none => []

def display : ExitStatus → Text
  | exited code => "exit status: ".toList ++ Text.ofNat code
  | signalled number dumped =>
    "signal: ".toList ++ displaySignal number ++ if dumped then " (core dumped)".toList else []
  | stopped number => "stopped (not terminated) by signal: ".toList ++ displaySignal number
  | unknown word =>
    "unrecognised wait status: ".toList ++ Text.ofNat word ++ " 0x".toList ++ Nat.toDigits 16 word

end ExitStatus

end WorkspaceRelease
