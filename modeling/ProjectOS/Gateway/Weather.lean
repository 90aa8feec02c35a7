import ProjectOS.Foundation

namespace ProjectOS.Gateway

inductive Weather where
  | timeout (timeout_ms : Nat)
  | rateLimited (retry_after_ms : Option Nat)
  | refusal (reason : String)
  | malformedOutput (reason : String)
  | budgetExhausted (limit message : String)
  | policyViolation (policy requested : String)
  | credentialUnavailable (reason : String)
  | credentialRevoked
  | authRejected (status : Nat)
  | unsupportedField (field : String)
  | invalidRequest (reason : String)
  | transport (reason : String)
  | transportUnavailable (selection : String)
  | ledgerFailure (reason : String)
  | notYetSupported (capability arrives_with : String)
  deriving DecidableEq

namespace Weather

def code : Weather → String
  | .timeout _ => "timeout"
  | .rateLimited _ => "rate_limited"
  | .refusal _ => "refusal"
  | .malformedOutput _ => "malformed_output"
  | .budgetExhausted .. => "budget_exhausted"
  | .policyViolation .. => "policy_violation"
  | .credentialUnavailable _ => "credential_unavailable"
  | .credentialRevoked => "credential_revoked"
  | .authRejected _ => "auth_rejected"
  | .unsupportedField _ => "unsupported_field"
  | .invalidRequest _ => "invalid_request"
  | .transport _ => "transport_failure"
  | .transportUnavailable _ => "transport_unavailable"
  | .ledgerFailure _ => "ledger_failure"
  | .notYetSupported .. => "not_yet_supported"

def retriable : Weather → Bool
  | .timeout _ | .rateLimited _ | .transport _ => true
  | _ => false

def text : Weather → String
  | .timeout timeout_ms => s!"provider timed out after {timeout_ms} ms"
  | .rateLimited (some ms) => s!"provider rate-limited; retry after {ms} ms"
  | .rateLimited none => "provider rate-limited"
  | .refusal reason => s!"model refused: {reason}"
  | .malformedOutput reason => s!"provider output did not parse: {reason}"
  | .budgetExhausted limit message => s!"budget exhausted ({limit}): {message}"
  | .policyViolation policy requested => s!"model policy {policy} refuses {requested}"
  | .credentialUnavailable reason => s!"credential unavailable: {reason}"
  | .credentialRevoked => "credential revoked"
  | .authRejected status => s!"provider rejected authentication (HTTP {status})"
  | .unsupportedField field => s!"endpoint does not support the field {field.quote}"
  | .invalidRequest reason => s!"request violates the gateway contract: {reason}"
  | .transport reason => s!"transport failure: {reason}"
  | .transportUnavailable selection => s!"no {selection} transport is composed in this gateway; the dispatch was authorized but has nothing to travel on"
  | .ledgerFailure reason => s!"cost ledger write failed: {reason}"
  | .notYetSupported capability arrives_with =>
    s!"{capability} is registered but not implemented yet; it lands with {arrives_with}"

end Weather
end ProjectOS.Gateway
