import WorkloadKit.Library.CString
import WorkloadKit.Library.Getopt

-- The functions `parse_opts` of two programs. The result is `none` if `usage` ends the program. The argument is
-- the vector without the name of the program.
namespace WorkloadKit.Options

open CString Getopt

namespace Heartbeat

structure CommandOpts where
  message  : Option (List Char)
  delay    : ℤ
  rep      : ℤ
  nbThread : ℤ
  verbose  : ℤ
  quiet    : ℤ
  deriving DecidableEq

def DEFAULT_MSG : List Char := "heartbeat".toList
def DEFAULT_DELAY : ℤ := 1000000
def DEFAULT_REP : ℤ := 10
def DEFAULT_NB_THD : ℤ := 1

def help : LongOption := ⟨"help".toList, false, 'h'⟩
def quiet : LongOption := ⟨"quiet".toList, false, 'q'⟩

def options : List LongOption := [
  help,
  ⟨"message".toList,   true,  'm'⟩,
  ⟨"delay".toList,     true,  'd'⟩,
  ⟨"rep".toList,       true,  'r'⟩,
  ⟨"nb_thread".toList, true,  'n'⟩,
  ⟨"verbose".toList,   false, 'v'⟩,
  quiet
]

def optstring : List Char :=
  "hvm:d:r:n:q:".toList

-- An iteration of the loop, with the variable `ret`. The option string has an argument for each letter that
-- uses one here.
def parseOpt (s : ℤ × CommandOpts) (e : Event) : Option (ℤ × CommandOpts) :=
  let (ret, opts) := s
  let optarg := e.snd.getD []
  match e.fst with
  | 'm' => some (ret, { opts with message := some optarg })
  | 'd' => some (ret, { opts with delay := atoi optarg })
  | 'r' => some (ret, { opts with rep := atoi optarg })
  | 'n' => some (ret, { opts with nbThread := atoi optarg })
  | 'h' => none
  | 'v' => some (ret, { opts with verbose := 1 })
  | 'q' => some (ret, { opts with quiet := 1 })
  | _   => some (-1, opts)

def CommandOpts.init : CommandOpts where
  message  := none
  delay    := 0
  rep      := 0
  nbThread := 0
  verbose  := 0
  quiet    := 0

def CommandOpts.withDefaults (opts : CommandOpts) : CommandOpts :=
  { opts with
    message  := some <| opts.message.getD DEFAULT_MSG
    delay    := if opts.delay = 0 then DEFAULT_DELAY else opts.delay
    rep      := if opts.rep = 0 then DEFAULT_REP else opts.rep
    nbThread := if opts.nbThread = 0 then DEFAULT_NB_THD else opts.nbThread }

def parseOpts (argv : List (List Char)) : Option (ℤ × CommandOpts) :=
  ((getoptLong optstring options argv).foldlM parseOpt (0, .init)).map fun (ret, opts) =>
    (ret, opts.withDefaults)

end Heartbeat

namespace RpcClient

-- The field `count` is not set.
structure Opts where
  async   : ℤ
  delay   : ℤ
  cmd     : ℤ
  server  : Option (List Char)
  port    : ℤ
  poll    : ℤ
  repeats : ℤ
  verbose : ℤ
  deriving DecidableEq

def RPC_HOG : ℤ := 0
def RPC_SLEEP : ℤ := 1
def RPC_PING : ℤ := 2

def DEFAULT_ASYNC : ℤ := 0
def DEFAULT_DELAY : ℤ := 10
def DEFAULT_PORT : ℤ := 9876

def help : LongOption := ⟨"help".toList, false, 'h'⟩
def server : LongOption := ⟨"server".toList, true, 's'⟩
def repeats : LongOption := ⟨"repeat".toList, true, 'r'⟩

def options : List LongOption := [
  help,
  server,
  ⟨"port".toList,    true,  'p'⟩,
  ⟨"async".toList,   true,  'a'⟩,
  ⟨"delay".toList,   true,  'd'⟩,
  ⟨"command".toList, true,  'c'⟩,
  ⟨"poll".toList,    true,  'x'⟩,
  repeats,
  ⟨"verbose".toList, false, 'v'⟩
]

def optstring : List Char :=
  "hva:d:c:s:p:x:".toList

def Opts.init : Opts where
  async   := DEFAULT_ASYNC
  delay   := DEFAULT_DELAY
  cmd     := RPC_HOG
  server  := none
  port    := DEFAULT_PORT
  poll    := 0
  repeats := 1
  verbose := 0

-- The command of a name, which stays as it is for any other one.
def command (cmd : ℤ) (optarg : List Char) : ℤ :=
  if optarg = "hog".toList then RPC_HOG
  else if optarg = "sleep".toList then RPC_SLEEP
  else if optarg = "ping".toList then RPC_PING
  else cmd

def parseOpt (opts : Opts) (e : Event) : Option Opts :=
  let optarg := e.snd.getD []
  match e.fst with
  | 'c' => some { opts with cmd := command opts.cmd optarg }
  | 'a' => some { opts with async := atoi optarg }
  | 'd' => some { opts with delay := atoi optarg }
  | 's' => some { opts with server := some optarg }
  | 'p' => some { opts with port := atoi optarg }
  | 'x' => some { opts with poll := atoi optarg }
  | 'r' => some { opts with repeats := atoi optarg }
  | 'h' => none
  | 'v' => some { opts with verbose := 1 }
  | _   => none

def parseOpts (argv : List (List Char)) : Option Opts := do
  let opts ← (getoptLong optstring options argv).foldlM parseOpt .init
  if opts.server = none then none else some opts

end RpcClient
end WorkloadKit.Options
