import FlowAnalysis.Report
import FlowAnalysis.Statement.Order
import FlowAnalysis.Statement.Printer
import FlowAnalysis.Text.Quoted
import FlowAnalysis.Proofs.Analysis.AvailableExprs
import FlowAnalysis.Proofs.Analysis.ReachingDefs
import FlowAnalysis.Proofs.Analysis.LiveVariables
import FlowAnalysis.Proofs.Solver.Schedule
import FlowAnalysis.Proofs.FlowGraph.Traces
import FlowAnalysis.Proofs.Analysis.Passes
import FlowAnalysis.Proofs.Analysis.LiveSound
import FlowAnalysis.Proofs.Analysis.AvailableSound
import FlowAnalysis.Proofs.Solver.Descent
import FlowAnalysis.Proofs.Solver.Resume
import FlowAnalysis.Proofs.FlowGraph.BackEdges
import FlowAnalysis.Proofs.Analysis.DeadAssignments
import FlowAnalysis.Proofs.Analysis.Sequencing
import FlowAnalysis.Proofs.FlowGraph.Grouping
import FlowAnalysis.Proofs.FlowGraph.Construction
import FlowAnalysis.Proofs.FlowGraph.Layout
import FlowAnalysis.Proofs.FlowGraph.EntryExit
import FlowAnalysis.Proofs.FlowGraph.OutEdges
import FlowAnalysis.Proofs.FlowGraph.ReversePostorder
import FlowAnalysis.Proofs.FlowGraph.SearchEdges
import FlowAnalysis.Proofs.Solver.Idle
import FlowAnalysis.Proofs.BitSet.Faithful
import FlowAnalysis.Proofs.Confluence.Laws
import FlowAnalysis.Proofs.Analysis.Scopes
import FlowAnalysis.Proofs.Analysis.Resume
import FlowAnalysis.Proofs.Checked.Report
import FlowAnalysis.Proofs.Digraph.Traversal
import FlowAnalysis.Proofs.Statement.Reading
import FlowAnalysis.Proofs.Digraph.Recursion
import FlowAnalysis.Proofs.Lookup
import FlowAnalysis.Proofs.Analysis.Membership
