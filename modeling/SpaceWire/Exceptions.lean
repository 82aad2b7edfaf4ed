namespace SpaceWire

/-- The exceptions the pure layers raise. A credit error carries its `reason`, the others
their message. -/
inductive Exn
  | creditError (reason : String)
  | runtimeError (message : String)
  | valueError (message : String)
  | typeError (message : String)
  deriving DecidableEq

end SpaceWire
