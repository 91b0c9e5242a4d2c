import VerilogInterface.Json.Reader
import VerilogInterface.Main
import VerilogInterface.Proofs.Acceptance
import VerilogInterface.Proofs.Stretches
import VerilogInterface.Proofs.Items
import VerilogInterface.Proofs.Collecting
import VerilogInterface.Proofs.Assembling
import VerilogInterface.Proofs.Spans
import VerilogInterface.Proofs.Matching
import VerilogInterface.Proofs.TokenTexts
import VerilogInterface.Proofs.Declarations
import VerilogInterface.Proofs.Documentation
import VerilogInterface.Proofs.Preference
import VerilogInterface.Proofs.Scanning
import VerilogInterface.Proofs.Ansi
import VerilogInterface.Proofs.AnsiHeads
import VerilogInterface.Proofs.AnsiPatterns
import VerilogInterface.Proofs.AnsiScan
import VerilogInterface.Proofs.AnsiInterface
import VerilogInterface.Proofs.Relocation
import VerilogInterface.Proofs.Independence
import VerilogInterface.Proofs.Lookahead
import VerilogInterface.Proofs.Concatenation
import VerilogInterface.Proofs.Markers
import VerilogInterface.Proofs.Rendering
import VerilogInterface.Proofs.ContinuedHeads
import VerilogInterface.Proofs.Demands
import VerilogInterface.Proofs.LineBreaks
import VerilogInterface.Proofs.Calls
import VerilogInterface.Proofs.Bracketing
import VerilogInterface.Proofs.Literals
import VerilogInterface.Proofs.Spacing
import VerilogInterface.Proofs.Settling
import VerilogInterface.Proofs.Directives
import VerilogInterface.Proofs.CommandAgreement
import VerilogInterface.Proofs.Locating
import VerilogInterface.Proofs.PathLists
import VerilogInterface.Proofs.Discovery
import VerilogInterface.Proofs.Designations
import VerilogInterface.Proofs.RepeatedArguments
import VerilogInterface.Proofs.CommandReports
import VerilogInterface.Proofs.JsonRecords
import VerilogInterface.Proofs.CatchAlls
import VerilogInterface.Proofs.Lookups
import VerilogInterface.Proofs.ErrorLines
import VerilogInterface.Proofs.DeclaringHeads
import VerilogInterface.Proofs.SkippedComments
import VerilogInterface.Proofs.Keywords
import VerilogInterface.Proofs.NearestProject
import VerilogInterface.Proofs.SectionLabels
import VerilogInterface.Proofs.TextLines
import VerilogInterface.Proofs.DocumentationTarget
