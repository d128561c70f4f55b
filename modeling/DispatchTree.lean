import DispatchTree.Command.Run
import DispatchTree.Main
import DispatchTree.Outline
import DispatchTree.Proofs.Artifacts
import DispatchTree.Proofs.Atomicity
import DispatchTree.Proofs.Balance
import DispatchTree.Proofs.BestCuts
import DispatchTree.Proofs.BestSplits
import DispatchTree.Proofs.Correspondence
import DispatchTree.Proofs.Decoding
import DispatchTree.Proofs.Dispatch
import DispatchTree.Proofs.FallThrough
import DispatchTree.Proofs.FirstFault
import DispatchTree.Proofs.Independence
import DispatchTree.Proofs.Layouts
import DispatchTree.Proofs.LookupCost
import DispatchTree.Proofs.Markers
import DispatchTree.Proofs.NameLists
import DispatchTree.Proofs.OptionLists
import DispatchTree.Proofs.Outlines
import DispatchTree.Proofs.Respelling
import DispatchTree.Proofs.Separation
import DispatchTree.Proofs.Sessions
import DispatchTree.Proofs.Shapes
import DispatchTree.Tree.Code
import DispatchTree.Tree.Fragment
