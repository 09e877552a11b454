import Reactor.Transition
import Reactor.Machine
import Reactor.Program
import Reactor.Rest
import Reactor.Acyclic
import Reactor.Rust
import Reactor.MtNode
import Reactor.MtSystem
import Reactor.MtOwner
import Reactor.MtStale
import Reactor.MtSession
import Reactor.MtRegistries
import Reactor.MtRouting
import Reactor.MtShutdown
import Reactor.MtTrace
import Reactor.MtNotices
import Reactor.MtTendermint
import Reactor.MtDuplex
import Reactor.MtRest
import Reactor.MtPipeline
import Reactor.MtSpeech
import Reactor.AbNode
import Reactor.AbSystem
import Reactor.AbBindings
import Reactor.AbDone
import Reactor.AbProgress
import Reactor.AbIntroductions
import Reactor.AbTest
import Reactor.Proto3
import Reactor.IpText
import Reactor.SnTypes
import Reactor.SnPubSub
import Reactor.SnNode
import Reactor.SnLoop
import Reactor.SnMethods
import Reactor.SnDelivery
import Reactor.SnIsolation
import Reactor.SnProtos
import Reactor.SnEncoding
import Reactor.SnFrames
import Reactor.SnSending
import Reactor.SnConversions
import Reactor.SnStream
import Reactor.SnUnfinished
import Reactor.SnStages
import Reactor.SnBook
import Reactor.SnProcess
import Reactor.SnRounds
import Reactor.SnAdmission
import Reactor.SnGrammar
import Reactor.SnRetries
import Reactor.SnReconnect
import Reactor.SnSilence
import Reactor.SnExchange
import Reactor.SnNetwork
import Reactor.SnView
import Reactor.SnDeadlock
import Reactor.SnAccord
import Reactor.SnAgreement
import Reactor.SnGreetings
import Reactor.SnHandshake
import Reactor.SnLink
import Reactor.SnIdentity
import Reactor.SnNotified
import Reactor.SnRest
import Reactor.SnServed
import Reactor.SnMesh
import Reactor.SnJoining
import Reactor.SnNeighbours
