import LiveHD.Upass.BundleJoin
import LiveHD.Synth.MaskAlgebra
import LiveHD.Usyn.Reproduce
import LiveHD.Aegraph.Rules.Mux
import LiveHD.Aegraph.Rules.Div
import LiveHD.Aegraph.Rules.Native
import LiveHD.Usyn.SopFactor
import LiveHD.Upass.LnastRange
import LiveHD.Usyn.XagLnetSound
import LiveHD.Usyn.ChoiceOpt
import LiveHD.Usyn.ResidualSearch
import LiveHD.Usyn.Region
import LiveHD.Usyn.DivisorFunction
import LiveHD.Lec.TermSimRun
import LiveHD.Satopt.WordSimFold
import LiveHD.Graph.MaterializeSound
import LiveHD.Lec.ReuseStore
import LiveHD.Lec.ConeDigestEqual
import LiveHD.Upass.SymbolTableRun
import LiveHD.Upass.CoalescerSound
import LiveHD.Usyn.Rebind
import LiveHD.Lec.ConeExpandKeeps
import LiveHD.Lec.ReplaySound
import LiveHD.Lec.ConeBatchSound
import LiveHD.Lec.ForkRaceSafe
import LiveHD.Sim.LoopFusionExact
import LiveHD.Cprop.Wiring
import LiveHD.Graph.EmitOrder
import LiveHD.Graph.CombDepsSound
import LiveHD.Lec.ArrayBlastRun
import LiveHD.Graph.LoopSplitSound
import LiveHD.Graph.FlattenSubsRun
import LiveHD.Graph.PortReachExact
import LiveHD.Synth.Arith.Shift
import LiveHD.Synth.MuxLower
import LiveHD.Core.StrTools
import LiveHD.Core.StateMatch
import LiveHD.Synth.CellNetlist
