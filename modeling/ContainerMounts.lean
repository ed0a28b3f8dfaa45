import ContainerMounts.CommandLine
import ContainerMounts.Main
import ContainerMounts.MountTable.Mountinfo
import ContainerMounts.Proofs.Confinement.Runs
import ContainerMounts.Proofs.ChrootLookup
import ContainerMounts.Proofs.KeptRestrictions.Runs
import ContainerMounts.Proofs.Planning
import ContainerMounts.Proofs.RequestedFlags.Runs
import ContainerMounts.Proofs.PlanOrder
import ContainerMounts.Proofs.Failures
import ContainerMounts.Proofs.Failures.Runs
import ContainerMounts.Proofs.CgroupGuard
import ContainerMounts.Proofs.CgroupGuard.Runs
import ContainerMounts.Proofs.Overlays
import ContainerMounts.Proofs.PinnedTarget
import ContainerMounts.Proofs.MountinfoText
import ContainerMounts.Proofs.AttachProtocol
import ContainerMounts.Proofs.OwnerTables
import ContainerMounts.Proofs.OwnerTables.Runs
import ContainerMounts.Proofs.CanonicalTargets
import ContainerMounts.Proofs.CreatedFiles
import ContainerMounts.Proofs.RetracedWalk
import ContainerMounts.Proofs.MaterializedLinks
import ContainerMounts.Proofs.LastTokenWins
import ContainerMounts.Proofs.RemountWords
import ContainerMounts.Proofs.TwoEncodings
import ContainerMounts.Proofs.PresentedIds
import ContainerMounts.Proofs.KernelTables
import ContainerMounts.Proofs.EnclosingMount
import ContainerMounts.Proofs.SpecialSources
import ContainerMounts.Proofs.BindSources
import ContainerMounts.Proofs.ImplicitProc
import ContainerMounts.Proofs.CanonicalDestinations
import ContainerMounts.Proofs.ControllerTree
import ContainerMounts.Proofs.Report
import ContainerMounts.Proofs.Report.Runs
import ContainerMounts.Proofs.WalkBounds
import ContainerMounts.Proofs.MappingProbe
import ContainerMounts.Proofs.SampleHost
