import WageFix.STO.Replay
import WageFix.STO.Gate
import WageFix.STO.Consent
import WageFix.STO.Authority
import WageFix.STO.Order
import WageFix.STO.Audit
import WageFix.Spirits.Serial
import WageFix.Spirits.Holdings
import WageFix.Spirits.Custody
import WageFix.Wire.Agreement
import WageFix.Wire.RoundTrip
import WageFix.Consumer.Issuance
import WageFix.Consumer.Service
import WageFix.Listener.Accounting
import WageFix.Listener.Survival
import WageFix.Listener.Poison
import WageFix.Listener.Loop
import WageFix.Bridge.Passes
import WageFix.Bridge.Payday
import WageFix.Bridge.Completion
import WageFix.Kyc.Evidence
import WageFix.Kyc.Confinement
import WageFix.Kyc.Submission
import WageFix.Multipart.Protocol
import WageFix.Multipart.RoundTrip
import WageFix.Multipart.Bounds
