import StackLift.Flow.Graphviz
import StackLift.Flow.Loop
import StackLift.Lift.Code
import StackLift.Listing.Reader

/-!
The command line: prints the register code of every method of a listing and, where asked, its flow
graph, blocks and loops. A method that cannot be lifted is left out.
-/

namespace StackLift

structure Options where
  simplify : Bool := true
  keepNames : Bool := true
  /-- Print each instruction with its successors and catchers. -/
  showGraph : Bool := false
  showBlocks : Bool := false
  showLoops : Bool := false
  /-- Write the flow graphs as Graphviz text. -/
  wantsDot : Bool := false

namespace Options

/-- Sets a flag; unknown ones are refused. -/
def setFlag? (o : Options) : String → Option Options
  | "--no-simplify" => some { o with simplify := false }
  | "--no-names" => some { o with keepNames := false }
  | "--cfg" => some { o with showGraph := true }
  | "--blocks" => some { o with showBlocks := true }
  | "--loops" => some { o with showLoops := true }
  | _ => none

def settings (o : Options) : Settings :=
  { keepNames := o.keepNames, simplify := o.simplify, firstLine := true }

def wantsFlow (o : Options) : Bool :=
  o.showGraph || o.showBlocks || o.showLoops || o.wantsDot

end Options

/-- What the words of a command line ask for: options, a listing to read and, where flow graphs are
wanted as Graphviz text, a file for them.
-/
structure Request where
  options : Options
  input : String
  dotFile : Option String

/-- A command line that was read in part. -/
structure Request.Draft where
  options : Options := {}
  input : Option String := none
  dotFile : Option String := none

/-- Reads the words of a command line; there has to be exactly one input. -/
def Request.read? (draft : Request.Draft) : List String → Option Request
  | [] => draft.input.map fun input =>
    { options := { draft.options with wantsDot := draft.dotFile.isSome }
      input
      dotFile := draft.dotFile }
  | "--dot" :: file :: rest =>
    if draft.dotFile.isSome then none else read? { draft with dotFile := some file } rest
  | word :: rest =>
    if word.toList.head? = some '-' then
      match draft.options.setFlag? word with
      | some options => read? { draft with options } rest
      | none => none
    else if draft.input.isSome then
      none
    else
      read? { draft with input := some word } rest

/-- What is printed and what goes to the Graphviz file. -/
structure Output where
  text : String
  dot : String

namespace CommandLine

def usage : String :=
  "Usage: stacklift [--no-simplify] [--no-names] [--cfg] [--blocks] [--loops] [--dot FILE] INPUT"

open Text (bracketed)
open Graphviz (instName blockName)

def line (text : String) : String :=
  text ++ "\n"

def instNames (is : List Nat) : String :=
  bracketed (is.map instName)

def blockNames (is : List Nat) : String :=
  bracketed (is.map blockName)

/-- The signature and the code of a method; labels are not indented. -/
def codeText (m : Method) (code : List Inst) : String :=
  line ("// " ++ m.signature)
    ++ String.join (code.map fun i =>
      line (if i.label?.isSome then i.render else "    " ++ i.render))

def graphText (g : FlowGraph) : String :=
  line "\n// instruction graph"
    ++ String.join (g.indices.map fun i =>
      let text := ((g.code.inst? i).map Inst.render).getD ""
      let source := ((g.code.line? i).map fun n => "line " ++ toString n).getD ""
      line (instName i ++ " " ++ Text.padRight 60 text
        ++ " succ " ++ instNames (g.successors i)
        ++ " catch " ++ instNames (g.catchers i) ++ " " ++ source))
    ++ String.join (g.throwExits.map fun (type, throwers) =>
      line ("     throws " ++ type.text ++ " from " ++ instNames throwers))

def blocksText (g : FlowGraph) : String :=
  let b := BlockGraph.ofGraph g
  line "\n// basic blocks"
    ++ String.join (b.indices.map fun i =>
      line (blockName i ++ ": succ " ++ blockNames (b.successors i)
          ++ " pred " ++ blockNames (b.predecessors i)
          ++ " catch " ++ blockNames (b.catchers i))
        ++ String.join ((b.instructions i).map fun inst => line ("    " ++ inst.render)))

def loopsText (g : FlowGraph) : String :=
  line "\n// loops"
    ++ String.join (g.loops.map fun l =>
      line ("head " ++ instName l.head ++ " back jump " ++ instName l.backJump
        ++ " exits " ++ instNames l.exits ++ " body " ++ instNames l.body))

/-- The parts of the report that need the flow graph. -/
def flowText (o : Options) (g : FlowGraph) : String :=
  (if o.showGraph then graphText g else "")
    ++ (if o.showBlocks then blocksText g else "")
    ++ (if o.showLoops then loopsText g else "")

/-- The report on a method. A method without code has none, and one without flow graph ends after
its code.
-/
def report (o : Options) (m : Method) : Output :=
  match m.lift o.settings with
  | .error _ => { text := "", dot := "" }
  | .ok code =>
    if !o.wantsFlow then
      { text := codeText m code ++ "\n", dot := "" }
    else
      match FlowGraph.ofCode code .standard with
      | .error _ => { text := codeText m code, dot := "" }
      | .ok g =>
        { text := codeText m code ++ flowText o g ++ "\n"
          dot := if o.wantsDot then line ("// " ++ m.signature) ++ g.graphviz true else "" }

/-- The reports on all methods of a listing. -/
def run (o : Options) (source : String) : Except Error Output := do
  let reports := (← Listing.read source).map (report o)
  return {
    text := String.join (reports.map Output.text)
    dot := String.join (reports.map Output.dot) }

end CommandLine

end StackLift
