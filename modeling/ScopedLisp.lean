import ScopedLisp.Main
import ScopedLisp.Workspace
import ScopedLisp.Proofs.Grammar
import ScopedLisp.Proofs.ReadBack
import ScopedLisp.Proofs.SoundStore
import ScopedLisp.Proofs.Activations
import ScopedLisp.Proofs.Progress
import ScopedLisp.Proofs.Invariants
import ScopedLisp.Proofs.History
import ScopedLisp.Proofs.Moments
import ScopedLisp.Proofs.FrameRule
import ScopedLisp.Proofs.Counting
import ScopedLisp.Proofs.Chains
import ScopedLisp.Proofs.Simulation
import ScopedLisp.Proofs.AsClosures
import ScopedLisp.Proofs.BlockProgram
import ScopedLisp.Proofs.Access
import ScopedLisp.Proofs.Temporaries
import ScopedLisp.Proofs.Occurrences
import ScopedLisp.Proofs.LexicalScope
import ScopedLisp.Proofs.Faults
import ScopedLisp.Proofs.Values
import ScopedLisp.Proofs.OverlongNumerals
import ScopedLisp.Proofs.LanguageErrors
import ScopedLisp.Proofs.Retention
import ScopedLisp.Proofs.OwnScope
import ScopedLisp.Proofs.Transcript
import ScopedLisp.Proofs.Discipline
import ScopedLisp.Proofs.Interlude
import ScopedLisp.Proofs.ImmediateCall
import ScopedLisp.Proofs.NestingLimit
import ScopedLisp.Proofs.TokenText
import ScopedLisp.Proofs.CheckedArithmetic
import ScopedLisp.Proofs.DefineLookup
import ScopedLisp.Proofs.LookAhead
import ScopedLisp.Proofs.Ownership
import ScopedLisp.Proofs.WordKinds
import ScopedLisp.Proofs.ActivationFrames
