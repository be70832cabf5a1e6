import ScriptFuzz.CommandLine.Endpoint

/-!
# Traces

Traces of a run are sent to an endpoint if one is named. What is said about sending them is checked
before the run; whether it succeeds does not concern the run.
-/

namespace ScriptFuzz.CommandLine.Tracing

set_option autoImplicit false

/-- The variable that names the endpoint, and the one that names it for traces alone. -/
def endpointVariable : String := "OTEL_EXPORTER_OTLP_ENDPOINT"
def traceEndpointVariable : String := "OTEL_EXPORTER_OTLP_TRACES_ENDPOINT"

/-- The variables that ask for a compression, the one that counts first. -/
def compressionVariables : List String :=
  ["OTEL_EXPORTER_OTLP_TRACES_COMPRESSION", "OTEL_EXPORTER_OTLP_COMPRESSION"]

/-- All variables about traces. -/
def variableNames : List String :=
  [endpointVariable, traceEndpointVariable] ++ compressionVariables

/-- Why traces cannot be sent. -/
inductive TracingError where
  | uri (error : UriError)
  | compression (name : String)
deriving DecidableEq, Repr

/-- The compressions that are known, none of which is at hand. -/
def knownCompressions : List String := ["gzip", "zstd"]

def TracingError.text (e : TracingError) : String :=
  "Exporter otlp encountered the following error(s): " ++
    match e with
    | .uri error => "invalid URI " ++ error.text
    | .compression name =>
      if knownCompressions.contains name then
        "feature '" ++ name ++ "-tonic' is required to use the compression algorithm '" ++ name ++
          "'"
      else "unsupported compression algorithm '" ++ name ++ "'"

/-- Checks what variables and settings say about sending traces. An endpoint for traces alone counts
only where traces are sent at all. -/
def check (valueOf? : String → Option String) (setting : Option String) :
    Except TracingError Unit := do
  match (valueOf? endpointVariable).or setting with
  | none => return
  | some endpoint =>
    if let some name := compressionVariables.findSome? valueOf? then throw (.compression name)
    match Endpoint.check ((valueOf? traceEndpointVariable).getD endpoint) with
    | .ok () => return
    | .error e => throw (.uri e)

end ScriptFuzz.CommandLine.Tracing
