import ApiElements.Main
import ApiElements.Json.Annotated
import ApiElements.Payload.Decorate
import ApiElements.Schema.Nullable
import ApiElements.Settings.Load
import ApiElements.Proofs.Codec.Data
import ApiElements.Proofs.Codec.Reads
import ApiElements.Proofs.Codec.RoundTrip
import ApiElements.Proofs.Codec.Grammar
import ApiElements.Proofs.Codec.Canonical
import ApiElements.Proofs.Json.Numeral
import ApiElements.Proofs.Json.Quoted
import ApiElements.Proofs.Json.Written
import ApiElements.Proofs.Json.Whole
import ApiElements.Proofs.Holds
import ApiElements.Proofs.Json.RoundTrip
import ApiElements.Proofs.Json.Fits
import ApiElements.Proofs.Compile.Visit
import ApiElements.Proofs.Compile.Settles
import ApiElements.Proofs.Compile.Faults
import ApiElements.Proofs.Inheritance.Merge
import ApiElements.Proofs.Compile.Ranked
import ApiElements.Proofs.Compile.Termination
import ApiElements.Proofs.Value.Form
import ApiElements.Proofs.Value.Keyed
import ApiElements.Proofs.Validation.Draft4
import ApiElements.Proofs.Validation.Fair
import ApiElements.Proofs.Validation.Regular
import ApiElements.Proofs.Validation.Satisfied
import ApiElements.Proofs.Validation.Members
import ApiElements.Proofs.Validation.Reached
import ApiElements.Proofs.Validation.Traces
import ApiElements.Proofs.Validation.Soundness
import ApiElements.Proofs.Compile.Depth
import ApiElements.Proofs.Compile.Entries
import ApiElements.Proofs.Inheritance.Shadow
import ApiElements.Proofs.Inheritance.Inclusion
import ApiElements.Proofs.Compile.Finish
import ApiElements.Proofs.Compile.Circular
import ApiElements.Proofs.Inheritance.Resolution
import ApiElements.Proofs.Inheritance.Derivation
import ApiElements.Proofs.Inheritance.Derived
import ApiElements.Proofs.Inheritance.Kept
import ApiElements.Proofs.Inheritance.Overriding
import ApiElements.Proofs.Registry.Flattening
import ApiElements.Proofs.Registry.Indexed
import ApiElements.Proofs.Validation.Nullable
import ApiElements.Proofs.Validation.Properties
import ApiElements.Proofs.Payload.Caught
import ApiElements.Proofs.Payload.Formed
import ApiElements.Proofs.Payload.Isolation
import ApiElements.Proofs.Payload.Change
import ApiElements.Proofs.Payload.Circular
import ApiElements.Proofs.Payload.Skipping
import ApiElements.Proofs.Payload.Foreseen
import ApiElements.Proofs.Payload.Repeated
import ApiElements.Proofs.Payload.Unrelated
import ApiElements.Proofs.Validation.Emitted
import ApiElements.Proofs.Validation.Folding
import ApiElements.Proofs.Validation.Keys
import ApiElements.Proofs.Validation.Alternatives
import ApiElements.Proofs.Validation.Choices
import ApiElements.Proofs.Validation.Required
import ApiElements.Proofs.Padding.Unresolved
import ApiElements.Proofs.Registry.Literals
import ApiElements.Proofs.Codec.Conservative
import ApiElements.Proofs.Codec.Respelled
import ApiElements.Proofs.Recast.Built
import ApiElements.Proofs.Inheritance.Places
import ApiElements.Proofs.Settings.Precedence
