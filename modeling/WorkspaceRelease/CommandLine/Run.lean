import WorkspaceRelease.CommandLine.Options
import WorkspaceRelease.Host
import WorkspaceRelease.Release

/-!
A run of the program: what it prints, how it exits, and the files it leaves. Log records go to
standard error where the filter admits them.
-/

namespace WorkspaceRelease.CommandLine

def versionText : Text := "ena-release 0.1.0\n".toList

def helpLines : List String :=
  ["Stamp versions across a Cargo workspace, tag the release and publish members in order",
   "",
   "Usage: ena-release [OPTIONS]",
   "",
   "Options:",
   "      --dry              Only print what is going to be done",
   "      --set-version      Stamp the version from version.txt into every workspace member",
   "      --tag              Commit all changes and tag the repository as v<version>",
   "      --publish          Publish packages in the order listed in publish-order.txt",
   "      --keep-going       Continue when a commit, tag or publish command fails",
   "      --prefix <PREFIX>  Dependencies whose name starts with this prefix get their version stamped",
   "                         [default: enalang]",
   "      --workspace <DIR>  Workspace root containing Cargo.toml, version.txt and publish-order.txt",
   "                         [default: .]",
   "  -v, --verbose          Print debug logs",
   "  -h, --help             Print help",
   "  -V, --version          Print version"]

def helpText : Text := helpLines.flatMap fun line => line.toList ++ ['\n']

def Question.answer : Question → Text
  | .help => helpText
  | .version => versionText

structure Finish where
  exit : UInt8
  /-- Printed text only; log records are lines of standard error by now. -/
  output : List Output
  files : FileTree
  /-- The paths that were read, in their order. -/
  reads : List Path

def Finish.stdout (f : Finish) : Text :=
  f.output.flatMap fun
    | .stdout t => t
    | _ => []

def Finish.stderr (f : Finish) : Text :=
  f.output.flatMap fun
    | .stderr t => t
    | _ => []

/-- Shows a record where the filter admits it, without the control sequences in it. -/
def shown (filter : LogFilter) : Output → List Output
  | .log r => if filter.admits r then [.stderr (Text.visible r.line)] else []
  | o => [o]

/-- The filter that is asked for, or else the one that the verbosity stands for. -/
def logSpec (asked : Option Text) (verbose : Bool) : Text :=
  asked.getD (if verbose then "debug".toList else "warn".toList)

def runRelease (host : Host) (options : Options) (logAsked : Option Text) (files : FileTree)
    (cwd : Location) : Finish :=
  let (filter, complaints) := LogFilter.ofSpec (logSpec logAsked options.verbose)
  let world : World Unit := { files, cwd, state := (), painted := false, trace := [] }
  let executor := host.executor cwd options.config.workspace
  let (result, world) := (release options.config executor).run.run world
  let output := complaints.map .stderr ++ world.outputs.flatMap (shown filter)
  match result with
  | .ok _ => ⟨0, output, world.files, world.reads⟩
  | .error e =>
    ⟨1, output ++ [.stderr ("Error: ".toList ++ e.message ++ ['\n'])], world.files, world.reads⟩

def run (host : Host) (words : List Text) (logAsked : Option Text) (files : FileTree)
    (cwd : Location) : Finish :=
  match Options.ofWords words with
  | .ok options => runRelease host options logAsked files cwd
  | .error (.question q) => ⟨0, [.stdout q.answer], files, []⟩
  | .error refusal => ⟨2, [.stderr (refusal.complaint ++ ['\n'])], files, []⟩

end WorkspaceRelease.CommandLine
