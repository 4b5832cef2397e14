import Cellular.CommandLine.Directory
import Cellular.Main
import Cellular.Proofs.Grid
import Cellular.Proofs.Grid.Boxes
import Cellular.Proofs.CoordSet
import Cellular.Proofs.CoordHash
import Cellular.Proofs.CoordSet.Calls
import Cellular.Proofs.Surface
import Cellular.Proofs.Surface.Quotient
import Cellular.Proofs.Surface.Specifier
import Cellular.Proofs.Step
import Cellular.Proofs.Synchronous
import Cellular.Proofs.Reuse
import Cellular.Proofs.Dense
import Cellular.Proofs.Run
import Cellular.Proofs.Determinism
import Cellular.Proofs.Pattern.Codec
import Cellular.Proofs.Pattern.Box
import Cellular.Proofs.Pattern.Lines
import Cellular.Proofs.Pattern.Walk
import Cellular.Proofs.Isotropic.Orbit
import Cellular.Proofs.Isotropic.Specification
import Cellular.Proofs.Isotropic.Step
import Cellular.Proofs.Resume
import Cellular.Proofs.Identification
import Cellular.Proofs.Identification.FirstMatch
import Cellular.Proofs.Word
import Cellular.Proofs.Word.Surface
import Cellular.Proofs.Word.Step
import Cellular.Proofs.Word.Run
import Cellular.Proofs.Word.Identification
import Cellular.Proofs.Batch.FirstReturn
import Cellular.Proofs.Batch.Resolution
import Cellular.Proofs.Batch.Rotation
import Cellular.Proofs.Batch.Agar
import Cellular.Proofs.Batch.Records
import Cellular.Proofs.Batch.Accounts
import Cellular.Proofs.Batch.Curves
import Cellular.Proofs.Containment
import Cellular.Proofs.States
import Cellular.Proofs.Translation.Step
import Cellular.Proofs.Translation.Identification
import Cellular.Proofs.Rule.Blocks
import Cellular.Proofs.Rule.Sections
import Cellular.Proofs.Rule.Meaning
import Cellular.Proofs.Rule.Sums
import Cellular.Proofs.Rule.Activity
import Cellular.Proofs.Rule.Layout
import Cellular.Proofs.Rule.Forms
import Cellular.Proofs.Rule.AgeingForms
import Cellular.Proofs.Rule.Families
import Cellular.Proofs.Isotropic.Counts
import Cellular.Proofs.Isotropic.Totals
import Cellular.Proofs.Isotropic.Writing
import Cellular.Proofs.Isotropic.Denotation
