/-
# Typed connector exceptions and the mapping of Aerospike errors

`classify` and `map_aerospike_error` of `errors.py`, over the exceptions a client
call may raise and the exceptions that the code raises itself.
-/
import LmcacheAerospike.Records

/-- `AEROSPIKE_ERR_FAIL_FORBIDDEN`. -/
def AEROSPIKE_ERR_FAIL_FORBIDDEN : ℤ := 22

/-- `AEROSPIKE_ERR_KEY_BUSY`. -/
def AEROSPIKE_ERR_KEY_BUSY : ℤ := 14

/-- `AerospikeConnectorError` (`base`) and its subclasses. -/
inductive ConnectorErrorKind : Type where
  | base | config | connection | recordTooBig | ttlConfig | busy | namespaceProbe
  | serverLimit | internal | unknown
  deriving DecidableEq, Repr

/-- Built-in exceptions that the code can run into. -/
inductive BuiltinError : Type where
  | KeyError | TypeError | ValueError | OverflowError | ZeroDivisionError | RuntimeError
  | IndexError
  deriving DecidableEq, Repr

/-- An exception leaving a function of the package. -/
inductive PyExc : Type where
  /-- An `AerospikeConnectorError` with its text. -/
  | connector (kind : ConnectorErrorKind) (text : String)
  /-- A raw `aerospike.exception`. -/
  | aerospike (exc : AxError)
  | builtin (err : BuiltinError)
  deriving DecidableEq, Repr

/-- What `classify` and `map_aerospike_error` are applied to: a client exception, or
`_BatchResultError(code)` for one element of a batch. -/
inductive Mappable : Type where
  | ax (exc : AxError)
  | batchResult (code : ℤ)
  deriving DecidableEq, Repr

/-- `_result_to_exc`. -/
def result_to_exc (result_code : ℤ) : Mappable := .batchResult result_code

/-- The behaviour buckets of `classify`. -/
inductive Bucket : Type where
  | busy | forbidden_ttl | not_found | too_big | timeout | connection | key_mismatch
  | unknown
  deriving DecidableEq, Repr

/-- `getattr(exc, "code", None)`. -/
def Mappable.code : Mappable → ℤ
  | .ax exc => exc.code
  | .batchResult code => code

/-- The `isinstance` tests of `classify`. -/
def AxKind.bucket : AxKind → Bucket
  | .RecordNotFound => .not_found
  | .RecordTooBig => .too_big
  | .TimeoutError => .timeout
  | .ConnectionError | .ClientError => .connection
  | .ForbiddenError => .forbidden_ttl
  | .DeviceOverload | .BatchQueueFullError | .RecordBusy => .busy
  | .RecordKeyMismatch => .key_mismatch
  | .AerospikeError => .unknown

/-- Map an exception to a behaviour bucket: its code first, then its class. -/
def classify (exc : Mappable) : Bucket :=
  if exc.code = AEROSPIKE_ERR_KEY_BUSY then .busy
  else if exc.code = AEROSPIKE_ERR_FAIL_FORBIDDEN then .forbidden_ttl
  else match exc with
    | .ax exc => exc.kind.bucket
    | .batchResult _ => .unknown

/-- `getattr(exc, "msg", str(exc))` in its `repr`. -/
def Mappable.msg : Mappable → String
  | .ax exc => exc.msg
  | .batchResult code => s!"'batch result code {code}'"

/-- Convert an exception to a typed connector error. -/
def map_aerospike_error (op_name : String) (exc : Mappable) : PyExc :=
  let code := exc.code
  let msg := exc.msg
  let detail := s!"{op_name}: aerospike code={code} msg={msg}"
  match classify exc with
  | .not_found => .connector .base detail
  | .too_big => .connector .recordTooBig detail
  | .timeout => .connector .base detail
  | .connection => .connector .connection detail
  | .forbidden_ttl => .connector .ttlConfig
      s!"{detail}; ensure namespace nsup-period > 0 when using positive TTL"
  | .busy => .connector .busy detail
  | .key_mismatch => .connector .internal detail
  | .unknown => .connector .unknown detail
