import SingleAssignment.Flow.Dot
import SingleAssignment.Proofs.Flow.Dangling
import SingleAssignment.Proofs.Text.Reading

/-!
# Graph descriptions keep their structure

The labels of a graph description mix text of its own with text from outside: the title of the
graph and the tags of instructions.  Whatever characters these hold, the description has the lines
that the flow graph asks for, and each label ends where it was meant to end.

* `FlowGraph.fits_dotLabel` — the label of a block fits between quotes.
* `FlowGraph.labelled_dotNode`, `FlowGraph.labelled_dotEdge` — a line with one label for a block and
  for a transfer.
* `FlowGraph.toList_toDot` — the description is its lines, each ended by a newline.
* `FlowGraph.toDot_keeps_structure` — **lines and labels of a description are read back as they were
  written, for any title and any text of tags.**
-/

namespace SingleAssignment

open Text

variable {τ : Type}

/-! ## Labels -/

theorem plain_nodeText (n : Node) : Plain (Node.text n).toList := by
  rw [Node.text, String.toList_append]
  exact .append (by decide) (plain_toString n)

theorem plain_localText (x : Local) : Plain x.text.toList := by
  rw [Local.text, String.toList_append]
  exact .append (by decide) (plain_toString _)

theorem plain_kindText (k : Kind) : Plain k.text.toList := by
  cases k <;> decide

theorem plain_edgeKindText (k : EdgeKind) : Plain k.text.toList := by
  cases k <;> decide

theorem plain_dotOffset (o : Offset) : Plain (dotOffset o).toList := plain_hexPadded 4 o.toNat

theorem fits_escapeLabel (text : String) : FitsLabel (escapeLabel text).toList := by
  rw [escapeLabel, String.toList_ofList]
  exact .escapeChars _

/-- The line of an instruction fits into a label, whatever its tag is shown as. -/
theorem Instruction.fits_dotText (describe : τ → String) (i : Instruction τ) :
    FitsLabel (i.dotText describe).toList := by
  unfold dotText
  simp only [String.toList_append]
  refine .append (.append (.of_plain ?_) (fits_escapeLabel _)) (.escape ?_ ?_ ?_)
  · refine .append (.append (.append (.append (.append (.append (plain_dotOffset _) ?_)
      (plain_kindText _)) ?_) ?_) ?_) (by decide)
    · decide
    · split
      · simp only [String.toList_append]
        exact .append (.append (by decide) (plain_localText _)) (by decide)
      · decide
    · intro c hc
      rw [String.toList_join, List.flatMap_map, List.mem_flatMap] at hc
      obtain ⟨x, -, hc⟩ := hc
      rw [String.toList_append] at hc
      exact Plain.append (by decide) (plain_localText x) c hc
    · split
      · rw [String.toList_append]
        exact .append (by decide) (plain_dotOffset _)
      · decide
  all_goals decide

namespace FlowGraph

/-- **The label of a block fits between quotes.** -/
theorem fits_dotLabel (describe : τ → String) (g : FlowGraph τ) (n : Node) (b : Block τ) :
    FitsLabel (g.dotLabel describe n b).toList := by
  unfold dotLabel
  simp only [String.toList_append]
  refine .append (.append (.of_plain (.append (.append ?_ (plain_dotOffset _)) ?_)) ?_) ?_
  · decide
  · split <;> decide
  · exact .escape (by decide) (by decide) (by decide)
  · rw [String.toList_join, List.flatMap_map]
    exact .flatMap fun i _ => i.fits_dotText describe

/-! ## Lines -/

theorem plain_dotStyle (g : FlowGraph τ) (n : Node) : Plain (g.dotStyle n).toList := by
  unfold dotStyle
  split
  · simp [Plain]
  · split <;> simp [Plain]

/-- The line of a block has one label. -/
theorem labelled_dotNode (describe : τ → String) (g : FlowGraph τ) (n : Node) (b : Block τ) :
    Labelled (g.dotNode describe n b).toList ("    " ++ Node.text n ++ " [label=").toList
      (g.dotLabel describe n b).toList (g.dotStyle n ++ "];").toList := by
  refine ⟨by simp [dotNode], ?_, g.fits_dotLabel describe n b, ?_⟩
  · simp only [String.toList_append]
    exact .append (.append (by decide) (plain_nodeText n)) (by decide)
  · rw [String.toList_append]
    exact .append (g.plain_dotStyle n) (by decide)

/-- The line of a transfer has one label. -/
theorem labelled_dotEdge (source target : Node) (kind : EdgeKind) :
    Labelled (dotEdge source target kind).toList
      ("    " ++ Node.text source ++ " -> " ++ Node.text target ++ " [label=").toList
      kind.text.toList "];".toList := by
  refine ⟨by simp [dotEdge], ?_, .of_plain (plain_edgeKindText kind), by decide⟩
  simp only [String.toList_append]
  exact .append (.append (.append (.append (by decide) (plain_nodeText _)) (by decide))
    (plain_nodeText _)) (by decide)

/-- The line of a title has one label. -/
theorem labelled_title (title : String) :
    Labelled ("    label=\"" ++ escapeLabel title ++ "\";").toList "    label=".toList
      (escapeLabel title).toList ";".toList :=
  ⟨by simp, by decide, fits_escapeLabel title, by decide⟩

/-- The two lines of a title are read as they were written. -/
theorem pieces_dotTitle (title : Option String) :
    ((dotTitle title).map String.toList).map pieces = title.toList.flatMap fun t =>
      [["    label=".toList, (escapeLabel t).toList, ";".toList], ["    labelloc=t;".toList]] := by
  cases title with
  | none => rfl
  | some t =>
      have hplace : pieces "    labelloc=t;".toList = ["    labelloc=t;".toList] :=
        pieces_of_not_mem (by decide)
      rw [dotTitle, List.map_cons, List.map_singleton, List.map_cons, List.map_singleton,
        (labelled_title t).pieces_eq, hplace]
      rfl

/-! ## The whole description -/

theorem map_fst_blocks (g : FlowGraph τ) : g.blocks.map (·.1) = List.range g.blockCount := by
  rw [blocks, List.map_map, List.range_eq_range', blockCount, OrderedGraph.nodeCount,
    ← Array.length_toList, ← List.zipIdx_map_snd]
  rfl

/-- The lines of the transfers follow the edges in the order of their sources. -/
theorem edgeLines_eq {g : FlowGraph τ} (h : g.graph.Linked) :
    (g.blocks.flatMap fun q => (g.outgoingEdges q.1).map fun e => dotEdge q.1 e.1 e.2) =
      g.graph.edgesBySource.map fun e => dotEdge e.source e.target e.label := by
  have hnodes := List.flatMap_map (·.1)
    (fun n => (g.outgoingEdges n).map fun e => dotEdge n e.1 e.2) g.blocks
  rw [← hnodes, map_fst_blocks, OrderedGraph.edgesBySource, List.map_flatMap]
  refine List.flatMap_congr fun n _ => ?_
  rw [outgoingEdges, OrderedGraph.outgoingEdges, h.edgesFrom_eq, List.map_map]
  refine List.map_congr_left fun e he => ?_
  rw [← beq_iff_eq.1 (List.mem_filter.1 he).2]
  rfl

/-- The description is its lines, each ended by a newline. -/
theorem toList_toDot (describe : τ → String) (g : FlowGraph τ) (title : Option String) :
    (g.toDot describe title).toList =
      ((g.dotLines describe title).map String.toList).flatMap (· ++ ['\n']) := by
  simp [toDot, String.toList_join, List.flatMap_map]

theorem newline_not_mem_dotTitle {title : Option String} {l : String} (h : l ∈ dotTitle title) :
    '\n' ∉ l.toList := by
  cases title with
  | none => cases h
  | some t =>
      rcases List.mem_cons.1 h with rfl | h
      · exact (labelled_title t).newline_not_mem
      · rw [List.mem_singleton.1 h]
        decide

/-- **No line is split by its contents.** -/
theorem newline_not_mem_dotLines {describe : τ → String} {g : FlowGraph τ} {title : Option String}
    {l : String} (h : l ∈ g.dotLines describe title) : '\n' ∉ l.toList := by
  simp only [dotLines, List.mem_append, List.mem_cons, List.not_mem_nil, or_false, List.mem_map,
    List.mem_flatMap] at h
  rcases h with (((((rfl | h) | rfl | rfl | rfl) | ⟨q, -, rfl⟩) | rfl) | ⟨q, -, e, -, rfl⟩) | rfl
  · simp
  · exact newline_not_mem_dotTitle h
  · simp
  · simp
  · simp
  · exact (labelled_dotNode describe g q.1 q.2).newline_not_mem
  · simp
  · exact (labelled_dotEdge q.1 e.1 e.2).newline_not_mem
  · simp

theorem length_dotLines {g : FlowGraph τ} (h : g.graph.Linked) (describe : τ → String)
    (title : Option String) : (g.dotLines describe title).length =
      6 + g.blockCount + g.edgeCount + if title.isSome then 2 else 0 := by
  have hblocks : g.blocks.length = g.blockCount := by
    rw [← List.length_map (·.1), map_fst_blocks, List.length_range]
  have hedges : (g.blocks.flatMap fun q => (g.outgoingEdges q.1).map fun e =>
      dotEdge q.1 e.1 e.2).length = g.edgeCount := by
    rw [edgeLines_eq h, List.length_map, h.perm_edgesBySource.length_eq]
    rfl
  have htitle : (dotTitle title).length = if title.isSome then 2 else 0 := by
    cases title <;> rfl
  simp only [dotLines, List.length_append, List.length_map, List.length_cons, List.length_nil,
    hblocks, htitle, hedges]
  omega

/-- **A description is read back as it was written.**  For a flow graph before or after renaming,
any title and any text of tags, the number of newlines is that of the lines to write.  There is one
line for each block, in the order of the nodes, and one line for each edge, in the order of sources
and then of insertion.  Cut at its quotes, the line of a title, a block or an edge consists of the
text in front of its label, the whole label and the text behind it. -/
theorem toDot_keeps_structure {g : FlowGraph τ} (hg : g.Attained) (describe : τ → String)
    (title : Option String) :
    (g.toDot describe title).toList.count '\n' =
        6 + g.blockCount + g.edgeCount + (if title.isSome then 2 else 0) ∧
      ∃ titleLines nodeLines edgeLines : List (List Char),
        (g.toDot describe title).toList.splitOn '\n' =
          ["digraph CFG \x7b".toList] ++ titleLines ++
            ["    node [shape=box, fontname=\"Courier\", fontsize=10];".toList,
              "    edge [fontname=\"Courier\", fontsize=9];".toList, []] ++
            nodeLines ++ [[]] ++ edgeLines ++ ["\x7d".toList, []] ∧
        titleLines.map pieces = title.toList.flatMap (fun t =>
          [["    label=".toList, (escapeLabel t).toList, ";".toList], ["    labelloc=t;".toList]]) ∧
        nodeLines.length = g.blockCount ∧
        (∀ n b, g.block? n = some b → nodeLines[n]?.map pieces =
          some [("    " ++ Node.text n ++ " [label=").toList, (g.dotLabel describe n b).toList,
            (g.dotStyle n ++ "];").toList]) ∧
        edgeLines.map pieces = g.graph.edgesBySource.map (fun e =>
          [("    " ++ Node.text e.source ++ " -> " ++ Node.text e.target ++ " [label=").toList,
            e.label.text.toList, "];".toList]) ∧
        g.graph.edgesBySource.Perm g.graph.edges.toList := by
  have hlines : ∀ l ∈ (g.dotLines describe title).map String.toList, '\n' ∉ l := by
    intro l hl
    obtain ⟨line, hline, rfl⟩ := List.mem_map.1 hl
    exact newline_not_mem_dotLines hline
  rw [toList_toDot, count_lines hlines, splitOn_lines hlines, List.length_map,
    length_dotLines hg.linked]
  refine ⟨rfl, (dotTitle title).map String.toList,
    g.blocks.map fun q => (g.dotNode describe q.1 q.2).toList,
    g.graph.edgesBySource.map fun e => (dotEdge e.source e.target e.label).toList,
    ?_, pieces_dotTitle title, ?_, ?_, ?_, hg.linked.perm_edgesBySource⟩
  · simp [dotLines, edgeLines_eq hg.linked, Function.comp_def]
  · rw [List.length_map, ← List.length_map (·.1), map_fst_blocks, List.length_range]
  · intro n b hb
    have hat : g.blocks[n]? = some (n, b) := by
      rw [blocks, List.getElem?_map, List.getElem?_zipIdx, Array.getElem?_toList,
        show g.graph.nodes[n]? = some b from hb]
      simp
    rw [List.getElem?_map, hat, Option.map_some, Option.map_some,
      (labelled_dotNode describe g n b).pieces_eq]
  · rw [List.map_map]
    refine List.map_congr_left fun e _ => ?_
    rw [Function.comp_apply, (labelled_dotEdge e.source e.target e.label).pieces_eq]

end FlowGraph

/-- Instructions whose tags try to end their label, their line and the whole description. -/
def hostile : List (Instruction String) :=
  [⟨0, "\"];\n\x7d", [], .assign ⟨1⟩⟩, ⟨1, "\\\\\\", [⟨1⟩], .branch true 0⟩,
    ⟨2, "\r\"", [⟨1⟩], .effect⟩]

/-- With a renamed block and a title that ends in a backslash, the description still has twelve
lines, and the label of the first block is read to its end. -/
theorem hostile_keeps_structure :
    ∃ g b, FlowGraph.build (Program.ofList hostile).labels hostile = .ok g ∧
      g.block? 0 = some b ∧ (g.setBlock 0 (b.afterRename [⟨7⟩])).Attained ∧
      ((g.setBlock 0 (b.afterRename [⟨7⟩])).toDot id (some "\"\n\\")).toList.count '\n' = 12 ∧
      ∃ line, line ∈ ((g.setBlock 0 (b.afterRename [⟨7⟩])).toDot id
          (some "\"\n\\")).toList.splitOn '\n' ∧
        pieces line = ["    n0 [label=".toList,
          ((g.setBlock 0 (b.afterRename [⟨7⟩])).dotLabel id 0 (b.afterRename [⟨7⟩])).toList,
          ((g.setBlock 0 (b.afterRename [⟨7⟩])).dotStyle 0 ++ "];").toList] := by
  have hrun : (FlowGraph.build (Program.ofList hostile).labels hostile).toOption.any
      (fun g => g.blockCount == 2 && g.edgeCount == 2) = true := by decide +kernel
  cases hg : FlowGraph.build (Program.ofList hostile).labels hostile with
  | error e =>
      rw [hg] at hrun
      cases hrun
  | ok g =>
      obtain ⟨hblocks, hedges⟩ : g.blockCount = 2 ∧ g.edgeCount = 2 := by
        simpa [hg, Except.toOption] using hrun
      obtain ⟨b, hb⟩ : ∃ b, g.block? 0 = some b :=
        node?_of_lt (by rw [show g.graph.nodeCount = 2 from hblocks]; decide)
      have hattained := (FlowGraph.Renames.refl.rename [⟨7⟩] hb).attained (.built hg)
      have hblock : (g.setBlock 0 (b.afterRename [⟨7⟩])).block? 0 = some (b.afterRename [⟨7⟩]) := by
        rw [FlowGraph.block?_setBlock hb, if_pos rfl]
      obtain ⟨hcount, titleLines, nodeLines, edgeLines, hlines, -, -, hnodes, -, -⟩ :=
        FlowGraph.toDot_keeps_structure hattained id (some "\"\n\\")
      refine ⟨g, b, rfl, hb, hattained, ?_, ?_⟩
      · have hsame : (g.setBlock 0 (b.afterRename [⟨7⟩])).blockCount = 2 :=
          (OrderedGraph.nodeCount_modify _ _ _).trans hblocks
        rw [hcount, hsame, show (g.setBlock 0 (b.afterRename [⟨7⟩])).edgeCount = 2 from hedges]
        rfl
      · obtain ⟨line, hline, hpieces⟩ := Option.map_eq_some_iff.1 (hnodes 0 _ hblock)
        refine ⟨line, ?_, hpieces⟩
        rw [hlines]
        simp [List.mem_of_getElem? hline]

end SingleAssignment
