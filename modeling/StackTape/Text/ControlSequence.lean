/-!
# Control sequences

The control characters and control sequences with which a text steers a terminal, and a text
without them (`plain`).
-/

namespace StackTape.Text

/-- Where a text stands with respect to control sequences. -/
inductive ControlMode where
  /-- Outside of control sequences. -/
  | ground
  /-- After the escape character. -/
  | escape
  /-- After the escape character and intermediate characters. -/
  | escapeIntermediate
  /-- In a sequence with parameters, up to its final character. -/
  | parameters
  /-- At the start of a device control string. -/
  | deviceEntry
  /-- In the parameters of a device control string. -/
  | deviceParameters
  /-- In the intermediate characters of a device control string. -/
  | deviceIntermediate
  /-- In a string, up to its terminator. -/
  | string
  /-- In a command to the operating system, which a bell ends. -/
  | command
  deriving DecidableEq

/-- The control characters that are white space. -/
def isLayout (c : Char) : Bool :=
  c = '\t' || c = '\n' || c = '\x0c' || c = '\r'

/-- The characters that are shown outside of control sequences. -/
def isVisible (c : Char) : Bool :=
  isLayout c || (' ' ≤ c && c ≠ '\x7f')

/-- Whether a character terminates a string. The terminator is a single byte, and counts wherever
it stands in the encoding of a character. -/
def isTerminator (c : Char) : Bool :=
  (String.utf8EncodeChar c).contains 0x9c

namespace ControlMode

/-- The mode after a character. -/
def next (m : ControlMode) (c : Char) : ControlMode :=
  if c = '\x1b' then escape
  else if c = '\x18' || c = '\x1a' then ground
  else
    match m with
    | ground => ground
    | escape =>
      if ' ' ≤ c && c ≤ '/' then escapeIntermediate
      else if c = '[' then parameters
      else if c = ']' then command
      else if c = 'P' then deviceEntry
      else if c = 'X' || c = '^' || c = '_' then string
      else if '0' ≤ c && c ≤ '~' then ground
      else escape
    | escapeIntermediate => if '0' ≤ c && c ≤ '~' then ground else escapeIntermediate
    | parameters => if '@' ≤ c && c ≤ '~' then ground else parameters
    | deviceEntry =>
      if ' ' ≤ c && c ≤ '/' then deviceIntermediate
      else if '0' ≤ c && c ≤ '?' then deviceParameters
      else if '@' ≤ c && c ≤ '~' then string
      else deviceEntry
    | deviceParameters =>
      if ' ' ≤ c && c ≤ '/' then deviceIntermediate
      else if '<' ≤ c && c ≤ '~' then string
      else deviceParameters
    | deviceIntermediate => if '0' ≤ c && c ≤ '~' then string else deviceIntermediate
    | string => if isTerminator c then ground else string
    | command => if c = '\x07' then ground else command

/-- Whether white space suspends the sequence. -/
def isSuspendable : ControlMode → Bool
  | escape | escapeIntermediate | parameters => true
  | _ => false

end ControlMode

/-- What is shown of a text that starts in the given mode. White space in a sequence is shown and
suspends the sequence: what follows is shown as well, until a control character resumes it or a
character outside of ASCII drops it. -/
def plainFrom (m : ControlMode) (suspended : Bool) : List Char → List Char
  | [] => []
  | c :: rest =>
    if (suspended || m = .ground) && isVisible c then
      c :: plainFrom (if c ≤ '\x7f' then m else .ground) suspended rest
    else if m.isSuspendable && isLayout c then c :: plainFrom m true rest
    else plainFrom (m.next c) false rest

/-- A text without control characters, white space apart, and without control sequences. -/
def plain (cs : List Char) : List Char :=
  plainFrom .ground false cs

end StackTape.Text
