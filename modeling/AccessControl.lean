import AccessControl.Description
import AccessControl.Guard
import AccessControl.Token.Sweep
import AccessControl.Proofs.Json.RoundTrip
import AccessControl.Proofs.Token.Authenticity
import AccessControl.Proofs.Token.Changes
import AccessControl.Proofs.Token.Issued
import AccessControl.Proofs.Token.Revocation
import AccessControl.Proofs.Guard.Admission
import AccessControl.Proofs.Tenant.Identities
import AccessControl.Proofs.Tenant.Isolation
import AccessControl.Proofs.Token.Pool
import AccessControl.Proofs.Token.Rotation
import AccessControl.Proofs.Token.SignedRoundTrip
import AccessControl.Proofs.Token.Bearing
import AccessControl.Proofs.Token.Frame
import AccessControl.Proofs.Token.Validity
import AccessControl.Proofs.Token.Ledger
import AccessControl.Proofs.Token.Formats
import AccessControl.Proofs.Token.Lineage
import AccessControl.Proofs.Policy.Answers
import AccessControl.Proofs.Policy.Principals
import AccessControl.Proofs.Token.Bookkeeping
import AccessControl.Proofs.Token.Expiry
import AccessControl.Proofs.Token.Sweeping
import AccessControl.Proofs.Identity.Freshness
import AccessControl.Proofs.Token.Lifetimes
import AccessControl.Proofs.Token.Others
import AccessControl.Proofs.Roles.Inheritance
import AccessControl.Proofs.Token.RevokeAll
import AccessControl.Proofs.Token.LateReport
import AccessControl.Proofs.Token.Logout
import AccessControl.Proofs.Token.Withdrawal
import AccessControl.Proofs.Token.Reporting
import AccessControl.Proofs.Token.Retrying
import AccessControl.Proofs.Token.Checks
import AccessControl.Proofs.Model.Nesting
import AccessControl.Proofs.Condition.Missing
import AccessControl.Proofs.Condition.Encoding
import AccessControl.Proofs.Permission.Coverage
import AccessControl.Proofs.Condition.WholeNumbers
import AccessControl.Proofs.Exemption.Ownership
import AccessControl.Proofs.Cancellation.Descent
import AccessControl.Proofs.Bearer.Headers
import AccessControl.Proofs.Token.Relisting
import AccessControl.Proofs.Token.RecordLife
