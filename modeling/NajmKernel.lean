import NajmKernel.PromotionRate
import NajmKernel.StretchedWaits
import NajmKernel.TaskLifecycle
import NajmKernel.SwitchWindow
import NajmKernel.ProgramEnds
import NajmKernel.InterruptStacks
import NajmKernel.SpaceTeardown
import NajmKernel.SpaceIsolation
import NajmKernel.FrameConservation
import NajmKernel.ElfExactness
import NajmKernel.MirageExclusion
import NajmKernel.MirageImports
import NajmKernel.EntryPoints
import NajmKernel.Syscalls
import NajmKernel.PortHistories
import NajmKernel.MessageDelivery
import NajmKernel.TrustedPath
import NajmKernel.SurfaceMemory
import NajmKernel.PackageIntegrity
import NajmKernel.PathSpellings
import NajmKernel.CapabilityRequests
import NajmKernel.ThemeColours
import NajmKernel.StackGuards
import NajmKernel.BuildDigests
import NajmKernel.InputDrivers
import NajmKernel.InputStreams
import NajmKernel.DescriptorRuns
import NajmKernel.SyscallWrites
import NajmKernel.ProcessTeardown
import NajmKernel.Descriptors
import NajmKernel.ProcessLives
import NajmKernel.UserPointers
import NajmKernel.SyscallRights
import NajmKernel.ArchiveRoundTrip
import NajmKernel.ReadyQueues
import NajmKernel.PathGrammar
import NajmKernel.CStrings
import NajmKernel.FrameHandouts
import NajmKernel.StackSlots
import NajmKernel.ThunkCalls
import NajmKernel.DirectoryLists
import NajmKernel.InputBounds
import NajmKernel.MirageProgress
import NajmKernel.RealTimeClock
import NajmKernel.TransferExactness
import NajmKernel.RelocationExactness
import NajmKernel.FileStreams
import NajmKernel.Presentations
import NajmKernel.PackageBuilding
import NajmKernel.ClockReading
import NajmKernel.PciBus
import NajmKernel.SyscallResults
import NajmKernel.WindowsCalls
import NajmKernel.CapabilityTokens
import NajmKernel.ProgramMemories
