import MiniDregg.PrivateBackend.TransitionDamage
import MiniDregg.PrivateBackend.OutputReservation
import MiniDregg.Law.RoundTrip
import MiniDregg.Scheduler.Capacity
import MiniDregg.PrivateBackend.CoverBinding
import MiniDregg.PrivateBackend.CircuitPlan
import MiniDregg.PayWatcher.NetCredit
import MiniDregg.Hiding.Binding
import MiniDregg.PortableArchive.Fidelity
import MiniDregg.SpkPackage.Resolution
import MiniDregg.Scheduler.Reservation
import MiniDregg.PqMailbox.OneShuffle
import MiniDregg.AsyncDispatch.OneExchange
import MiniDregg.PrivateBackend.AnchorRuns
import MiniDregg.PrivateBackend.SealedOutboxRetained
import MiniDregg.PrivateBackend.PrivateSendAgreement
import MiniDregg.KeyService.PoolCeilings
import MiniDregg.Clearing.TieBreak
import MiniDregg.SpkHost.Redirect
import MiniDregg.RoomKeys.Drafting
import MiniDregg.PrivateBackend.RobustDecoding
import MiniDregg.SpkPackage.WellFormed
import MiniDregg.Law.ScalarStep
import MiniDregg.Prover.MleKernels
import MiniDregg.MiniSdk.Custody
import MiniDregg.SpkHost.DispatchFence
