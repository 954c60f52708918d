import SingleAssignment.Flow.Graph
import SingleAssignment.Text.Hex
import SingleAssignment.Text.Label

/-!
# Graph descriptions

`FlowGraph.toDot` describes a flow graph in the language of graph drawing tools, one line for each
block in order of creation and one line for each transfer.  Titles and tags may hold any text: they
pass through `Text.escapeLabel` on their way into a label.
-/

namespace SingleAssignment

/-- An offset in a graph description: at least four upper-case digits. -/
def dotOffset (o : Offset) : String := Text.hexPadded 4 o.toNat

variable {τ : Type}

/-- One instruction inside the label of its block; `describe` shows its tag. -/
def Instruction.dotText (describe : τ → String) (i : Instruction τ) : String :=
  let written := match i.destination? with
    | some d => " " ++ d.text ++ " ="
    | none => ""
  let reads := String.join (i.operands.map (" " ++ ·.text))
  let target := match i.branch? with
    | some (_, t) => " -> " ++ dotOffset t
    | none => ""
  dotOffset i.offset ++ ": " ++ i.kind.text ++ written ++ reads ++ target ++ " " ++
    Text.escapeLabel (describe i.tag) ++ "\\l"

namespace FlowGraph

/-- Whether control starts at a node. -/
def isEntry (g : FlowGraph τ) (n : Node) : Bool := g.entry? == some n

/-- The label of a block: its offset, then its instructions. -/
def dotLabel (describe : τ → String) (g : FlowGraph τ) (n : Node) (b : Block τ) : String :=
  "B_" ++ dotOffset b.offset ++ (if g.isEntry n then " (entry)" else "") ++ "\\l" ++
    String.join (b.instructions.toList.map (·.dotText describe))

/-- The drawing style of a block: the entry is filled, dangling blocks are dashed. -/
def dotStyle (g : FlowGraph τ) (n : Node) : String :=
  if g.isEntry n then ", style=filled, fillcolor=lightgreen"
  else if g.isDangling n then ", style=dashed"
  else ""

/-- The line of a block. -/
def dotNode (describe : τ → String) (g : FlowGraph τ) (n : Node) (b : Block τ) : String :=
  "    " ++ Node.text n ++ " [label=\"" ++ g.dotLabel describe n b ++ "\"" ++ g.dotStyle n ++ "];"

/-- The line of a transfer. -/
def dotEdge (source target : Node) (kind : EdgeKind) : String :=
  "    " ++ Node.text source ++ " -> " ++ Node.text target ++ " [label=\"" ++ kind.text ++ "\"];"

/-- The lines of a title. -/
def dotTitle : Option String → List String
  | some title => ["    label=\"" ++ Text.escapeLabel title ++ "\";", "    labelloc=t;"]
  | none => []

/-- All lines of the description. -/
def dotLines (describe : τ → String) (g : FlowGraph τ) (title : Option String) : List String :=
  ["digraph CFG \x7b"] ++ dotTitle title ++
    ["    node [shape=box, fontname=\"Courier\", fontsize=10];",
     "    edge [fontname=\"Courier\", fontsize=9];",
     ""] ++
    g.blocks.map (fun (n, b) => g.dotNode describe n b) ++
    [""] ++
    (g.blocks.flatMap fun (n, _) => (g.outgoingEdges n).map fun (t, kind) => dotEdge n t kind) ++
    ["\x7d"]

/-- The description of a flow graph, each line ended by a newline. -/
def toDot (describe : τ → String) (g : FlowGraph τ) (title : Option String) : String :=
  String.join ((g.dotLines describe title).map (· ++ "\n"))

end FlowGraph

end SingleAssignment
