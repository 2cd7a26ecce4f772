import WorkloadKit.Library.CString

namespace WorkloadKit.Pulse

open CString

structure Pincpu where
  cpus   : List ℤ
  nrcpus : ℕ

structure Experiment where
  nrThread : ℤ
  spin     : ℤ
  freq     : ℤ
  duration : ℤ
  pin      : Bool
  cpuset   : Pincpu

-- What `getopt_long` returns for the options of `parse_opts`. Anything else is `unknown`.
inductive Opt
  | help | verbose | unknown
  | duration (optarg : List Char)
  | thread (optarg : List Char)
  | frequency (optarg : List Char)
  | spin (optarg : List Char)
  | cpuset (optarg : List Char)

-- The value of a token as an `int`.
def cpuOf (tok : List Char) : ℤ :=
  toInt (strtol tok).fst

-- The second loop of `pincpu_parse`, which stores the tokens from the index `i` on.
def fill (online : ℤ) (cpus : List ℤ) (i : ℕ) : List (List Char) → ℤ × List ℤ
  | []          => (0, cpus)
  | tok :: toks =>
    let rest := (strtol tok).snd
    if cpuOf tok ≥ online then
      (-1, cpus)
    else if rest ≠ [] then
      (-1, cpus)
    else
      fill online (cpus.set i <| cpuOf tok) (i + 1) toks

-- The parameter `online` is the number of processors which are online. The string of delimiters is taken to
-- end after the comma.
def pincpuParse (online : ℤ) (cpuset : Pincpu) (input : List Char) : ℤ × Pincpu :=
  let toks := strtok ',' input
  let nrcpus := cpuset.nrcpus + toks.length
  let (ret, cpus) := fill online (List.replicate nrcpus 0) 0 toks
  (ret, { cpus, nrcpus })

-- The delimiters that `strtok` reads from the address of `sep`. As `sep` has no terminator, they go on in the
-- memory which comes after it.
def delimiters (after : List Char) : List Char :=
  ',' :: after.takeWhile (· ≠ '\x00')

-- A call of `pincpu_parse` with what is really in the memory after `sep`.
def pincpuParseFrom (after : List Char) (online : ℤ) (cpuset : Pincpu) (input : List Char) : ℤ × Pincpu :=
  let toks := strtokAny (delimiters after) input
  let nrcpus := cpuset.nrcpus + toks.length
  let (ret, cpus) := fill online (List.replicate nrcpus 0) 0 toks
  (ret, { cpus, nrcpus })

-- What `dump_cpuset` prints between the brackets.
def dumpCpuset (cpuset : Pincpu) : List Char :=
  (List.range cpuset.nrcpus).flatMap fun i =>
    printd (cpuset.cpus.getD i 0) ++ if i ≠ cpuset.nrcpus - 1 then [','] else []

-- The result is `none` if `usage` ends the program.
def parseOpt (online : ℤ) (exp : Experiment) : Opt → Option Experiment
  | .duration optarg  => some { exp with duration := atol optarg }
  | .thread optarg    => some { exp with nrThread := atoi optarg }
  | .frequency optarg => some { exp with freq := atoi optarg }
  | .spin optarg      => some { exp with spin := atoi optarg }
  | .cpuset optarg    =>
    let (ret, cpuset) := pincpuParse online exp.cpuset optarg
    if ret < 0 then none else some { exp with pin := true, cpuset }
  | .help             => none
  | .verbose          => none
  | .unknown          => none

-- The defaults of `parse_opts`. The other fields are cleared as `main` allocates the structure.
def Experiment.default : Experiment where
  nrThread := 2
  spin     := 100000
  freq     := 4
  duration := 1000000
  pin      := false
  cpuset   := { cpus := [], nrcpus := 0 }

def parseOpts (online : ℤ) (opts : List Opt) : Option Experiment := do
  let exp ← opts.foldlM (parseOpt online) .default
  if exp.cpuset.nrcpus = 0 then none else some exp

-- The CPU that the thread with the given id is pinned to.
def pulsePincpu (exp : Experiment) (id : ℕ) : Option ℤ :=
  exp.cpuset.cpus[id % exp.cpuset.nrcpus]?

end WorkloadKit.Pulse
