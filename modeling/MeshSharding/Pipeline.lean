import MeshSharding.Pipeline.Import
import MeshSharding.Pipeline.Export
import MeshSharding.Program.Text
import MeshSharding.Propagation.Admission

/-! The pipeline that resolves the shardings of a program in the stages import, propagate
and export, and the snapshots it takes between them. -/
namespace MeshSharding

structure Pipeline where
  options : Options
  catalogue : Catalogue
  policy : Policy
  heuristics : List Heuristic

/-- The text of a program at a point of the pipeline, and the file it belongs in. -/
structure Snapshot where
  file : String
  text : String
deriving DecidableEq

structure Report where
  reshards : List InsertedReshard
  provenance : Provenance
deriving DecidableEq

namespace Snapshot

def take (file : String) (p : Program) : Snapshot := ⟨file, p.text⟩

/-- Directories are never created below the null device. -/
def isWritable (directory : String) : Bool :=
  !(["dev", "null"].isPrefixOf
    ((directory.splitOn "/").filter fun part => part ≠ "" ∧ part ≠ ".")
      && directory.startsWith "/")

end Snapshot

namespace Pipeline

def ofOptions (options : Options) : Pipeline :=
  ⟨options, Catalogue.builtin, Policy.largest, Heuristic.standard⟩

def importStage (l : Pipeline) (p : Program) : Except Error Program :=
  Import.importProgram l.catalogue p

def propagateStage (l : Pipeline) (p : Program) : Except Error (Program × Provenance) :=
  Admission.propagate ⟨p, l.options, l.policy⟩ l.heuristics

def exportStage (l : Pipeline) (p : Program) :
    Except Error (Program × List InsertedReshard) :=
  Export.exportProgram l.options p

/-- All stages, with the snapshots taken up to the end or the first error. -/
def trace (l : Pipeline) (p : Program) :
    List Snapshot × Except Error (Program × Report) :=
  let input := [Snapshot.take "00_input.mlir" p]
  match l.importStage p with
  | .error e => (input, .error e)
  | .ok p =>
    let imported := input ++ [Snapshot.take "01_import.mlir" p]
    match l.propagateStage p with
    | .error e => (imported, .error e)
    | .ok (p, provenance) =>
      let propagated := imported ++ [Snapshot.take "02_propagate.mlir" p]
      match l.exportStage p with
      | .error e => (propagated, .error e)
      | .ok (p, reshards) =>
        (propagated ++ [Snapshot.take "03_export.mlir" p], .ok (p, ⟨reshards, provenance⟩))

/-- The directory for snapshots has to be there before the first stage. -/
def checkDirectory (l : Pipeline) : Except Error Unit :=
  match l.options.dumpDirectory with
  | none => .ok ()
  | some directory =>
    if Snapshot.isWritable directory then .ok ()
    else .error (.dump (directory ++ "/00_input.mlir") "Not a directory")

def run (l : Pipeline) (p : Program) : Except Error (Program × Report) := do
  l.checkDirectory
  (l.trace p).2

end Pipeline
end MeshSharding
