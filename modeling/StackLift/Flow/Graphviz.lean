import StackLift.Flow.Block

/-! Flow graphs and block graphs as Graphviz text. -/

namespace StackLift

namespace Graphviz

/-- Escapes backslashes and double quotes. -/
def escape (text : String) : String :=
  String.join (text.toList.map fun c =>
    if c = '\\' then "\\\\" else if c = '"' then "\\\"" else String.singleton c)

/-- The name of an instruction. -/
def instName (i : Nat) : String :=
  "i" ++ toString i

/-- The name of a block. -/
def blockName (i : Nat) : String :=
  "bb" ++ toString i

/-- A graph of boxes and edges. -/
def digraph (nodes edges : List String) : String :=
  "digraph \x7b\n  node [shape=box, fontname=\"monospace\"];\n\n"
    ++ String.join nodes ++ "\n" ++ String.join edges ++ "\x7d\n"

/-- A box whose text is already escaped. -/
def node (name label : String) : String :=
  "  " ++ name ++ " [ label = \"" ++ label ++ "\" ]\n"

/-- An edge with its attributes. -/
def edge (source target : String) (attributes : List String) : String :=
  let suffix := if attributes.isEmpty then "" else
    " [ " ++ Text.commaSeparated attributes ++ " ]"
  "  " ++ source ++ " -> " ++ target ++ suffix ++ "\n"

def label (text : String) : String :=
  "label = \"" ++ escape text ++ "\""

end Graphviz

open Graphviz (digraph node edge label escape instName blockName)

/-- The normal edges of an instruction, with the outcome of a condition or the key of a switch. -/
def FlowGraph.labelledEdges (g : FlowGraph) (i : Nat) : List (Nat × List String) :=
  let edges (targets : List (CodeLabel × String)) :=
    targets.filterMap fun (l, text) =>
      (g.code.labelTarget l).toOption.map fun target => (target, [label text])
  match g.code.inst? i with
  | some (.branch _ onTrue onFalse) => edges [(onTrue, "true"), (onFalse, "false")]
  | some (.switch _ cases default) =>
    edges (cases.map (fun c => (c.2, c.1.render)) ++ [(default, "else")])
  | _ => (g.successors i).map fun target => (target, [])

/-- The edges of an instruction to its catchers. -/
def FlowGraph.catchEdges (g : FlowGraph) (i : Nat) : List (Nat × List String) :=
  (g.catchers i).map fun handler =>
    let text := match g.code.inst? handler with
      | some (.catches exception _ _) => "catch " ++ exception.type.text
      | _ => "catch"
    (handler, [label text, "style = dashed"])

/-- The flow graph as Graphviz text, with or without the edges to catchers. -/
def FlowGraph.graphviz (g : FlowGraph) (withCatches : Bool) : String :=
  digraph
    (g.indices.map fun i => node (instName i) (escape (((g.code.inst? i).map Inst.render).getD "")))
    (g.indices.flatMap fun i =>
      (g.labelledEdges i ++ if withCatches then g.catchEdges i else []).map
        fun (target, attributes) => edge (instName i) (instName target) attributes)

/-- The block graph as Graphviz text, with the instructions of a block left-aligned in its box. -/
def BlockGraph.graphviz (b : BlockGraph) : String :=
  digraph
    (b.indices.map fun i =>
      node (blockName i)
        (String.join ((b.instructions i).map fun inst => escape inst.render ++ "\\l")))
    (b.indices.flatMap fun i =>
      (b.successors i).map (fun target => edge (blockName i) (blockName target) [])
        ++ (b.catchers i).map fun target =>
          edge (blockName i) (blockName target) ["style = dashed"])

end StackLift
