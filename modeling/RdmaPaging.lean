import RdmaPaging.Machine
import RdmaPaging.RunSteps
import RdmaPaging.ClientCore
import RdmaPaging.ClientPipeline
import RdmaPaging.ClientDataPath
import RdmaPaging.ClientReads
import RdmaPaging.ClientDone
import RdmaPaging.ClientStartup
import RdmaPaging.ClientTeardown
import RdmaPaging.RadixTree
import RdmaPaging.VmCore
import RdmaPaging.VmForest
import RdmaPaging.VmWalk
import RdmaPaging.VmAccounting
import RdmaPaging.VmRuns
import RdmaPaging.VmSweep
import RdmaPaging.VmClone
import RdmaPaging.VmTranslation
import RdmaPaging.VmFree
import RdmaPaging.VmUnmap
import RdmaPaging.DuneAddress
import RdmaPaging.PagerCore
import RdmaPaging.VmxActive
import RdmaPaging.VmxLaunch
import RdmaPaging.UmmCore
import RdmaPaging.UmmLock
import RdmaPaging.VmxSignals
import RdmaPaging.EptCore
import RdmaPaging.RadixLeaf
import RdmaPaging.EptTree
import RdmaPaging.EptBalance
import RdmaPaging.ClientPoll
import RdmaPaging.PagerMain
import RdmaPaging.FirewallCore
import RdmaPaging.FirewallRules
import RdmaPaging.FirewallLines
import RdmaPaging.FirewallParse
import RdmaPaging.SandboxTrap
import RdmaPaging.FirewallMonitor
import RdmaPaging.Procmap
import RdmaPaging.VmVisits
import RdmaPaging.VmProtect
import RdmaPaging.VmRange
import RdmaPaging.VmLeaves
import RdmaPaging.VmMapPhys
import RdmaPaging.VmAgree
import RdmaPaging.VmCalls
import RdmaPaging.PagerFault
import RdmaPaging.VmPageTable
import RdmaPaging.VmWalkExact
import RdmaPaging.SthreadCore
import RdmaPaging.SthreadIsolation
import RdmaPaging.SthreadMachine
import RdmaPaging.SthreadTables
import RdmaPaging.SthreadReadOnly
import RdmaPaging.SthreadTags
import RdmaPaging.SthreadCalls
import RdmaPaging.SthreadDescriptors
import RdmaPaging.SthreadAsserts
import RdmaPaging.SthreadChecks
import RdmaPaging.SthreadPointers
import RdmaPaging.SthreadRuns
import RdmaPaging.SthreadRecycle
import RdmaPaging.PoolRuns
import RdmaPaging.EptFault
import RdmaPaging.EptNotifier
import RdmaPaging.EptInvalidate
import RdmaPaging.EptRace
import RdmaPaging.MapCache
import RdmaPaging.EptTlb
import RdmaPaging.EptShootdown
import RdmaPaging.VcpuVpids
import RdmaPaging.VcpuCreate
import RdmaPaging.CowFault
import RdmaPaging.VmOrder
import RdmaPaging.VmDemand
import RdmaPaging.VmMapFresh
import RdmaPaging.VmSupply
import RdmaPaging.VmWindows
import RdmaPaging.BootMappings
import RdmaPaging.BootAccess
import RdmaPaging.VmMapUnmap
import RdmaPaging.VmUnmapForeign
import RdmaPaging.PagerMemory
import RdmaPaging.PagerOut
import RdmaPaging.PagerRuns
import RdmaPaging.PagerSolo
import RdmaPaging.VmxDispatch
import RdmaPaging.DriverLoad
import RdmaPaging.SandboxMemory
import RdmaPaging.SandboxParams
import RdmaPaging.UmmSpace
import RdmaPaging.UmmBreak
import RdmaPaging.ByteMemory
import RdmaPaging.ArgStack
import RdmaPaging.ThreadHandover
import RdmaPaging.ElfLoad
import RdmaPaging.ElfImage
import RdmaPaging.ElfSections
import RdmaPaging.ScriptExec
import RdmaPaging.WordMemory
import RdmaPaging.TrapFrames
import RdmaPaging.UserMode
import RdmaPaging.UserRuns
