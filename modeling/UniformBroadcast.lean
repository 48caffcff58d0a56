import UniformBroadcast.TransitionRuns
import UniformBroadcast.SequencedStreams
import UniformBroadcast.TcpRingInvariant
import UniformBroadcast.TcpRingPreservation
import UniformBroadcast.TcpRingTotalOrder
import UniformBroadcast.TcpRingUniformity
import UniformBroadcast.TcpRingThreads
import UniformBroadcast.TcpRingThreadsFlow
import UniformBroadcast.TcpRingThreadsOrder
import UniformBroadcast.UdpMulticastNetwork
import UniformBroadcast.UdpMulticastInvariant
import UniformBroadcast.UdpMulticastPreservation
import UniformBroadcast.UdpMulticastTotalOrder
import UniformBroadcast.UdpMulticastUniformity
import UniformBroadcast.TrainAddress
import UniformBroadcast.TrainWagon
import UniformBroadcast.TrainProcess
import UniformBroadcast.TrainStateMachine
import UniformBroadcast.LapSchedule
import UniformBroadcast.TrainRing
import UniformBroadcast.TrainVisits
import UniformBroadcast.TrainRingInvariant
import UniformBroadcast.TrainRingPreservation
import UniformBroadcast.TrainRingDelivery
import UniformBroadcast.TrainRingOrder
import UniformBroadcast.LittleEndian
import UniformBroadcast.TrainFrame
import UniformBroadcast.TrainCarriage
import UniformBroadcast.TrainConnections
import UniformBroadcast.TrainDisconnections
import UniformBroadcast.SetReplay
import UniformBroadcast.TrainAlone
import UniformBroadcast.TrainBroadcasts
import UniformBroadcast.TrainCircuit
import UniformBroadcast.TrainFraming
import UniformBroadcast.TrainWrites
import UniformBroadcast.LengthScans
import UniformBroadcast.TrainScans
import UniformBroadcast.CountedBlocks
import UniformBroadcast.TrainBuffers
import UniformBroadcast.TrainRestart
import UniformBroadcast.TrainRecovery
import UniformBroadcast.TrainPredecessor
import UniformBroadcast.ClockWindow
import UniformBroadcast.TrainContinuity
import UniformBroadcast.TrainContinuityStreams
import UniformBroadcast.TrainContinuityPath
import UniformBroadcast.TrainContinuitySteps
import UniformBroadcast.TrainContinuityRing
import UniformBroadcast.TrainContinuityTreat
import UniformBroadcast.TrainContinuityNeighbours
import UniformBroadcast.TrainContinuityCrash
import UniformBroadcast.TrainContinuityCrashRun
import UniformBroadcast.TrainContinuityInsertion
import UniformBroadcast.TrainContinuityPlace
import UniformBroadcast.TrainContinuityInsertionRun
import UniformBroadcast.TrainContinuityRuns
import UniformBroadcast.TrainEntry
import UniformBroadcast.TrainReinsertion
import UniformBroadcast.TrainIndexes
import UniformBroadcast.TrainIndexSimulation
import UniformBroadcast.TrainWagonBuffer
import UniformBroadcast.UdpMulticastLosses
import UniformBroadcast.TrainFlowControl
import UniformBroadcast.TrainAddressSyntax
import UniformBroadcast.TcpRingConfig
import UniformBroadcast.SequencerMeasures
import UniformBroadcast.UdpMulticastStart
import UniformBroadcast.TrainBackoff
import UniformBroadcast.FallibleSteps
import UniformBroadcast.TrainWagonLayout
import UniformBroadcast.CellChains
import UniformBroadcast.TrainQueues
import UniformBroadcast.RunAccounts
import UniformBroadcast.SequencerProgress
import UniformBroadcast.TcpRingTraffic
import UniformBroadcast.TcpRingProgress
import UniformBroadcast.TcpRingProgram
import UniformBroadcast.TcpRingStartStop
import UniformBroadcast.TcpRingSchedules
import UniformBroadcast.UdpMulticastProgress
import UniformBroadcast.TrainRingTraffic
import UniformBroadcast.TrainRingProgress
import UniformBroadcast.TrainContents
import UniformBroadcast.TrainDeliveries
import UniformBroadcast.FramedConnections
import UniformBroadcast.TcpRingFrames
import UniformBroadcast.TcpRingWire
import UniformBroadcast.TrainReadBack
import UniformBroadcast.TrainRingWire
import UniformBroadcast.UdpMulticastThreads
