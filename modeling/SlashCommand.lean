import SlashCommand.Json.Reader
import SlashCommand.Main
import SlashCommand.Proofs.Decimal.Literal
import SlashCommand.Proofs.Message.Quotation
import SlashCommand.Proofs.Message.Roles
import SlashCommand.Proofs.Declaration.Brackets
import SlashCommand.Proofs.Declaration.WellFormed
import SlashCommand.Proofs.Builder.Head
import SlashCommand.Proofs.Builder.Representation
import SlashCommand.Proofs.Builder.Stages
import SlashCommand.Proofs.Builder.Description
import SlashCommand.Proofs.Builder.Restriction
import SlashCommand.Proofs.Builder.Menu
import SlashCommand.Proofs.Builder.Reflection
import SlashCommand.Proofs.Command.Canonical
import SlashCommand.Proofs.Command.Offer
import SlashCommand.Proofs.Command.Usage
import SlashCommand.Proofs.Resolution.Agreement
import SlashCommand.Proofs.Resolution.Distribution
import SlashCommand.Proofs.Resolution.FlagOrder
import SlashCommand.Proofs.Resolution.GivenFlag
import SlashCommand.Proofs.Resolution.DeclarationOrder
import SlashCommand.Proofs.Resolution.Fallback
import SlashCommand.Proofs.Resolution.Offered
import SlashCommand.Proofs.Resolution.Inert
import SlashCommand.Proofs.Resolution.Verdict
import SlashCommand.Proofs.Resolution.ArgumentObject
import SlashCommand.Proofs.Dispatch.Addressed
import SlashCommand.Proofs.Dispatch.Containment
import SlashCommand.Proofs.Dispatch.Refused
import SlashCommand.Proofs.Dispatch.Suggestion
import SlashCommand.Proofs.Dispatch.Concealed
import SlashCommand.Proofs.Console.Routing
import SlashCommand.Proofs.Console.Structured
