import TreeWalk.Main
import TreeWalk.Proofs.BlamedParameter
import TreeWalk.Proofs.BlockRoundTrip
import TreeWalk.Proofs.BrokenBundle
import TreeWalk.Proofs.ChildStep
import TreeWalk.Proofs.FewestRuns
import TreeWalk.Proofs.GatherOrder
import TreeWalk.Proofs.IndexSafety
import TreeWalk.Proofs.KernelCrew
import TreeWalk.Proofs.Lockstep
import TreeWalk.Proofs.NodeSelection
import TreeWalk.Proofs.OptionGrammar
import TreeWalk.Proofs.OptionMerge
import TreeWalk.Proofs.PackedBarriers
import TreeWalk.Proofs.PassesInFlight
import TreeWalk.Proofs.PauseComparison
import TreeWalk.Proofs.PauseTransparency
import TreeWalk.Proofs.PipelineRefinement
import TreeWalk.Proofs.PoolHistory
import TreeWalk.Proofs.ProgramListing
import TreeWalk.Proofs.RegionLookup
import TreeWalk.Proofs.ScratchBudget
import TreeWalk.Proofs.StageLowering
import TreeWalk.Proofs.StoppedCores
import TreeWalk.Proofs.StrayCores
import TreeWalk.Proofs.TreeLevels
